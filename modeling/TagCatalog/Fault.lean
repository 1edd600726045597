import TagCatalog.Content
import TagCatalog.Score
import TagCatalog.Topic

/-! The ways a request or an update can fail, and the words each is reported in. -/

namespace TagCatalog

inductive Dimension
  | tags
  | languages
  deriving DecidableEq, Repr

def Dimension.name : Dimension → String
  | .tags => "tags"
  | .languages => "languages"

/-- The unsigned totals of a topic row. -/
inductive Counter
  | topPosts
  | comments
  | childrenRshares2
  deriving DecidableEq, Repr

def Counter.name : Counter → String
  | .topPosts => "top_posts"
  | .comments => "comments"
  | .childrenRshares2 => "total_children_rshares2"

inductive Ranking
  | hot
  | trending
  deriving DecidableEq, Repr

def Ranking.name : Ranking → String
  | .hot => "hot"
  | .trending => "trending"

def ScoreParams.describe (p : ScoreParams) : String :=
  "ScoreParams \x7b rshares_scale: " ++ toString p.rsharesScale.toInt ++ ", decay_seconds: " ++
    toString p.decaySeconds.toInt ++ " \x7d"

inductive SettingsFault
  | unreadable
  | unwritable
  | notPositive (ranking : Ranking) (params : ScoreParams)
  | zeroReplyDepth
  | other (text : String)
  deriving DecidableEq, Repr

def SettingsFault.message : SettingsFault → String
  | .unreadable => "Failed to parse"
  | .unwritable => "Failed to serialize config"
  | .notPositive r p => r.name ++ " score tunables must be positive: " ++ p.describe
  | .zeroReplyDepth => "max_reply_depth must be positive"
  | .other text => text

inductive Fault
  | limitExceeded (limit max : Nat)
  | overlap (dimension : Dimension) (name : String)
  | contentNotFound (address : Address)
  | contentIdNotFound (id : Nat)
  | outsidePayoutWindow (address : Address)
  | totalsMissing (topic : Topic)
  | authorTotalsMissing (author : String) (topic : Topic)
  | negativeCounter (counter : Counter) (topic : Topic)
  | entryMissing (id : Nat)
  | duplicateEntry (topic : Topic) (content : Nat)
  | depthExceeded (max : Nat)
  | poisoned
  | settings (fault : SettingsFault)
  | json
  | io
  deriving DecidableEq, Repr

namespace Fault

def message : Fault → String
  | .limitExceeded limit max =>
    "Query limit " ++ toString limit ++ " exceeds maximum " ++ toString max
  | .overlap dimension name =>
    "'" ++ name ++ "' is both selected and filtered in " ++ dimension.name
  | .contentNotFound a => "Content " ++ a.author ++ "/" ++ a.permlink ++ " not found"
  | .contentIdNotFound id => "Content ID " ++ toString id ++ " not found"
  | .outsidePayoutWindow a =>
    "Content " ++ a.author ++ "/" ++ a.permlink ++ " is outside its payout window"
  | .totalsMissing topic => "Tag stats row missing for " ++ topic.describe
  | .authorTotalsMissing author topic =>
    "Author stats row missing for " ++ author ++ " " ++ topic.describe
  | .negativeCounter counter topic =>
    "Counter " ++ counter.name ++ " would go negative for " ++ topic.describe
  | .entryMissing id => "Tag entry " ++ toString id ++ " not found"
  | .duplicateEntry topic content =>
    "Duplicate tag entry " ++ topic.describe ++ " for content " ++ toString content
  | .depthExceeded max => "Reply chain exceeds maximum depth " ++ toString max
  | .poisoned => "Index lock poisoned"
  | .settings fault => "Configuration error: " ++ fault.message
  | .json => "JSON error"
  | .io => "IO error"

/-- The catalog and the ledger disagree, or the ledger lacks what an operation names. -/
def isInvariant : Fault → Bool
  | .contentNotFound _ | .contentIdNotFound _ | .outsidePayoutWindow _ | .totalsMissing _
  | .authorTotalsMissing .. | .negativeCounter .. | .entryMissing _ | .duplicateEntry ..
  | .depthExceeded _ => true
  | _ => false

def isRequest : Fault → Bool
  | .limitExceeded .. | .overlap .. => true
  | _ => false

def exitCode : Fault → Nat
  | .io => 1
  | .json | .settings _ => 2
  | f => if f.isRequest then 3 else 4

end Fault

end TagCatalog
