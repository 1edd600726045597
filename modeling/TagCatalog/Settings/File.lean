import TagCatalog.Settings
import TagCatalog.Toml.Reader
import TagCatalog.Update

/-! Settings files. They are written in full; in one that is read any setting may be missing, other
names are passed over, and a score has to give both its tunables, by name or in their order. -/

namespace TagCatalog

inductive Setting
  | maxReplyDepth
  | maxTags
  | includeCategory
  | hot
  | trending
  deriving DecidableEq, Repr

namespace Setting

def key : Setting → String
  | .maxReplyDepth => "max_reply_depth"
  | .maxTags => "max_tags"
  | .includeCategory => "include_category"
  | .hot => "hot"
  | .trending => "trending"

def all : List Setting := [.maxReplyDepth, .maxTags, .includeCategory, .hot, .trending]

end Setting

namespace ScoreParams

/-- What follows the two tunables in an array is passed over. -/
def ofToml? : Toml → Option ScoreParams
  | .array (scale :: decay :: _) => do
    return ⟨.ofInt (← scale.asInteger?), .ofInt (← decay.asInteger?)⟩
  | v => do
    let items ← v.asTable?
    let scale ← (items.find? "rshares_scale").bind Toml.asInteger?
    let decay ← (items.find? "decay_seconds").bind Toml.asInteger?
    return ⟨.ofInt scale, .ofInt decay⟩

end ScoreParams

namespace Settings

def line (key value : String) : String := key ++ " = " ++ value ++ "\n"

def scoreTable (key : String) (p : ScoreParams) : String :=
  "\n[" ++ key ++ "]\n" ++ line "rshares_scale" (toString p.rsharesScale.toInt) ++
    line "decay_seconds" (toString p.decaySeconds.toInt)

def partText (s : Settings) (part : Setting) : String :=
  match part with
  | .maxReplyDepth => line part.key (toString s.maxReplyDepth)
  | .maxTags => line part.key (toString s.maxTags)
  | .includeCategory => line part.key (if s.includeCategory then "true" else "false")
  | .hot => scoreTable part.key s.hot
  | .trending => scoreTable part.key s.trending

def render (s : Settings) : String := String.join (Setting.all.map s.partText)

/-- The text of a settings file. Its integers have 64 bits and a sign. -/
def save (s : Settings) : Except SettingsFault String :=
  if s.maxReplyDepth < 2 ^ 63 ∧ s.maxTags < 2 ^ 63 then .ok s.render else .error .unwritable

/-- Write the settings to a file, in the place of what it holds. -/
def store (s : Settings) : Update (Option ByteArray) Unit :=
  match s.save with
  | .ok text => set (some text.toUTF8)
  | .error f => Update.fail (.settings f)

def item (items : Toml.Items) (part : Setting) (default : α) (read : Toml → Option α) :
    Option α :=
  match items.find? part.key with
  | none => some default
  | some v => read v

def ofToml? (items : Toml.Items) : Option Settings := do
  return {
    maxReplyDepth := ← item items .maxReplyDepth 255 Toml.asNatural?
    maxTags := ← item items .maxTags 5 Toml.asNatural?
    includeCategory := ← item items .includeCategory true Toml.asBoolean?
    hot := ← item items .hot .hot ScoreParams.ofToml?
    trending := ← item items .trending .trending ScoreParams.ofToml? }

def read (text : String) : Except SettingsFault Settings :=
  match (Toml.read? text).bind ofToml? with
  | none => .error .unreadable
  | some s => s.validate.map fun _ => s

def load (bytes : ByteArray) : Except Fault Settings :=
  match String.fromUTF8? bytes with
  | none => .error .io
  | some text => (read text).mapError .settings

end Settings

end TagCatalog
