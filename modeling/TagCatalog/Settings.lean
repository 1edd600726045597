import TagCatalog.Fault

/-! The tunables of the catalog, with their defaults and the values that are refused. -/

namespace TagCatalog

namespace ScoreParams

def hot : ScoreParams := ⟨10000000, 10000⟩

def trending : ScoreParams := ⟨10000000, 480000⟩

end ScoreParams

structure Settings where
  maxReplyDepth : Nat := 255
  maxTags : Nat := 5
  /-- Whether the category counts as one more tag. -/
  includeCategory : Bool := true
  hot : ScoreParams := .hot
  trending : ScoreParams := .trending
  deriving DecidableEq, Repr

namespace Settings

def checkPositive (ranking : Ranking) (p : ScoreParams) : Except SettingsFault Unit :=
  if p.rsharesScale ≤ 0 || p.decaySeconds ≤ 0 then .error (.notPositive ranking p) else .ok ()

/-- Refuses tunables below one, the hot ones first, and then a reply depth of zero. -/
def validate (s : Settings) : Except SettingsFault Unit := do
  checkPositive .hot s.hot
  checkPositive .trending s.trending
  if s.maxReplyDepth = 0 then .error .zeroReplyDepth else .ok ()

def scores (s : Settings) (rshares : Int64) (created : Instant) : Score × Score :=
  (s.hot.score rshares created, s.trending.score rshares created)

end Settings

end TagCatalog
