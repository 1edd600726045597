import TagCatalog.Proofs.TomlDocument
import TagCatalog.Settings.File

/-! Settings that are written to a file and read back, from the whole text or from what is left of
it after some settings are taken out. -/

namespace TagCatalog

namespace Settings

open Toml (Block Says IsBare)

variable {s : Settings}

/-- Both numbers are integers that a file can hold. -/
def Writable (s : Settings) : Prop := s.maxReplyDepth < 2 ^ 63 ∧ s.maxTags < 2 ^ 63

/-- The settings with the default in the place of each that is not kept. -/
def keeping (kept : Setting → Bool) (s : Settings) : Settings :=
  let defaults : Settings := {}
  { maxReplyDepth := if kept .maxReplyDepth then s.maxReplyDepth else defaults.maxReplyDepth
    maxTags := if kept .maxTags then s.maxTags else defaults.maxTags
    includeCategory := if kept .includeCategory then s.includeCategory else defaults.includeCategory
    hot := if kept .hot then s.hot else defaults.hot
    trending := if kept .trending then s.trending else defaults.trending }

/-- The text of the settings without those that are not kept. In the place of one that is taken
out, any number of empty lines may be left. -/
def excerpt (kept : Setting → Bool) (gap : Setting → Nat) (s : Settings) : String :=
  String.join (Setting.all.map fun part =>
    if kept part then s.partText part else String.ofList (List.replicate (gap part) '\n'))

theorem excerpt_all (gap : Setting → Nat) (s : Settings) :
    s.excerpt (fun _ => true) gap = s.render := rfl

theorem keeping_all (s : Settings) : s.keeping (fun _ => true) = s := rfl

theorem Writable.keeping (h : s.Writable) (kept : Setting → Bool) : (s.keeping kept).Writable := by
  obtain ⟨hdepth, htags⟩ := h
  simp only [Writable, Settings.keeping]
  constructor <;> split <;> omega

/-! ## What a settings file says -/

def scoreFields (p : ScoreParams) : Toml.Items :=
  [("rshares_scale", .integer p.rsharesScale.toInt), ("decay_seconds", .integer p.decaySeconds.toInt)]

def block (s : Settings) : Setting → Block
  | .maxReplyDepth => .value (.integer s.maxReplyDepth)
  | .maxTags => .value (.integer s.maxTags)
  | .includeCategory => .value (.boolean s.includeCategory)
  | .hot => .table (scoreFields s.hot)
  | .trending => .table (scoreFields s.trending)

theorem says_line (key : String) {value : String} {v : Toml} (hkey : IsBare key.toList)
    (hvalue : Toml.IsScalar value.toList v) :
    Says (line key value).toList [.assign [key] v] := by
  simpa [line] using Says.assign hkey hvalue

theorem says_scoreTable {key : String} (hkey : IsBare key.toList) (p : ScoreParams) :
    Says (scoreTable key p).toList ((Block.table (scoreFields p)).statements key) := by
  have hscale := says_line "rshares_scale" ⟨by simp, by simp; decide⟩
    (Toml.isScalar_toString ⟨p.rsharesScale.le_toInt, p.rsharesScale.toInt_lt⟩)
  have hdecay := says_line "decay_seconds" ⟨by simp, by simp; decide⟩
    (Toml.isScalar_toString ⟨p.decaySeconds.le_toInt, p.decaySeconds.toInt_lt⟩)
  have htable := (Says.header hkey).newline.append (hscale.append hdecay)
  simpa [scoreTable, Block.statements, scoreFields] using htable

theorem isBare_key (part : Setting) : IsBare part.key.toList := by
  cases part <;> exact ⟨by simp [Setting.key], by simp [Setting.key]; decide⟩

theorem says_partText (h : s.Writable) (part : Setting) :
    Says (s.partText part).toList ((s.block part).statements part.key) := by
  obtain ⟨hdepth, htags⟩ := h
  have hkey := isBare_key part
  cases part with
  | maxReplyDepth => exact says_line _ hkey (Toml.isScalar_toString (n := s.maxReplyDepth) (by omega))
  | maxTags => exact says_line _ hkey (Toml.isScalar_toString (n := s.maxTags) (by omega))
  | includeCategory => exact says_line _ hkey (Toml.isScalar_boolean s.includeCategory)
  | hot => exact says_scoreTable hkey s.hot
  | trending => exact says_scoreTable hkey s.trending

def blocks (kept : Setting → Bool) (s : Settings) : List (String × Block) :=
  (Setting.all.filter kept).map fun part => (part.key, s.block part)

theorem says_parts (h : s.Writable) (kept : Setting → Bool) (gap : Setting → Nat)
    (parts : List Setting) :
    Says (String.join (parts.map fun part =>
        if kept part then s.partText part
        else String.ofList (List.replicate (gap part) '\n'))).toList
      (((parts.filter kept).map fun part => (part.key, s.block part)).flatMap
        fun (key, block) => block.statements key) := by
  induction parts with
  | nil => simpa using Says.nil
  | cons part parts ih =>
    rw [String.toList_join] at ih ⊢
    rw [List.map_cons, List.flatMap_cons]
    by_cases hkept : kept part = true
    · rw [if_pos hkept, List.filter_cons_of_pos hkept]
      exact (says_partText h part).append ih
    · rw [if_neg hkept, List.filter_cons_of_neg hkept, String.toList_ofList]
      exact ih.newlines (gap part)

theorem ordered_blocks (kept : Setting → Bool) (s : Settings) : Toml.Ordered (s.blocks kept) where
  keys := by
    have hall : (Setting.all.map Setting.key).Nodup := by decide
    rw [blocks, List.map_map]
    exact hall.sublist (List.filter_sublist.map Setting.key)
  fields := by
    intro key fields hmem
    obtain ⟨part, -, hpart⟩ := List.mem_map.mp hmem
    rw [Prod.mk.injEq] at hpart
    cases part with
    | maxReplyDepth | maxTags | includeCategory => simp [block] at hpart
    | hot | trending =>
      simp only [block, Block.table.injEq] at hpart
      simp [← hpart.2, scoreFields]
  valuesFirst := by
    rw [blocks, List.pairwise_map]
    refine List.Pairwise.filter _ ?_
    simp [Setting.all, block, Block.isTable]

/-- The items that a file gives. -/
def keptItems (kept : Setting → Bool) (s : Settings) : Toml.Items :=
  (Setting.all.filter kept).map fun part => (part.key, (s.block part).toToml)

theorem read?_excerpt (h : s.Writable) (kept : Setting → Bool) (gap : Setting → Nat) :
    Toml.read? (s.excerpt kept gap) = some (s.keptItems kept) := by
  have hsays : Says (s.excerpt kept gap).toList
      ((s.blocks kept).flatMap fun (key, block) => block.statements key) :=
    says_parts h kept gap Setting.all
  rw [Toml.read?_of_says hsays, Toml.build?_blocks (ordered_blocks kept s), blocks, List.map_map]
  rfl

/-! ## What is read of it -/

theorem find?_keptItems (kept : Setting → Bool) (s : Settings) (part : Setting) :
    (s.keptItems kept).find? part.key =
      if kept part then some (s.block part).toToml else none := by
  rw [keptItems, Toml.Items.find?, List.find?_map, List.find?_filter]
  cases part <;> cases hkept : kept _ <;> simp [Setting.all, Setting.key, hkept]

theorem item_keptItems (kept : Setting → Bool) {α : Type} {part : Setting} {default value : α}
    {read : Toml → Option α} (h : read (s.block part).toToml = some value) :
    item (s.keptItems kept) part default read = some (if kept part then value else default) := by
  rw [item, find?_keptItems]
  cases kept part with
  | true => exact h
  | false => rfl

theorem ofToml?_scoreFields (p : ScoreParams) :
    ScoreParams.ofToml? (.table .opened (scoreFields p)) = some p := by
  simp [ScoreParams.ofToml?, Toml.asTable?, scoreFields, Toml.Items.find?, Toml.asInteger?]

theorem ofToml?_keptItems (kept : Setting → Bool) (s : Settings) :
    ofToml? (s.keptItems kept) = some (s.keeping kept) := by
  have hdepth : (s.block .maxReplyDepth).toToml.asNatural? = some s.maxReplyDepth := rfl
  have htags : (s.block .maxTags).toToml.asNatural? = some s.maxTags := rfl
  have hcategory : (s.block .includeCategory).toToml.asBoolean? = some s.includeCategory := rfl
  have hhot : ScoreParams.ofToml? (s.block .hot).toToml = some s.hot := ofToml?_scoreFields s.hot
  have htrending : ScoreParams.ofToml? (s.block .trending).toToml = some s.trending :=
    ofToml?_scoreFields s.trending
  rw [ofToml?, item_keptItems kept hdepth, item_keptItems kept htags, item_keptItems kept hcategory,
    item_keptItems kept hhot, item_keptItems kept htrending]
  rfl

theorem fromUTF8?_toUTF8 (text : String) : String.fromUTF8? text.toUTF8 = some text :=
  dif_pos text.isValidUTF8

theorem load_excerpt (h : s.Writable) (kept : Setting → Bool) (gap : Setting → Nat) :
    load (s.excerpt kept gap).toUTF8 =
      match (s.keeping kept).validate with
      | .ok _ => .ok (s.keeping kept)
      | .error f => .error (.settings f) := by
  have hread : read (s.excerpt kept gap) =
      (s.keeping kept).validate.map fun _ => s.keeping kept := by
    rw [read, read?_excerpt h, Option.bind_some, ofToml?_keptItems]
  rw [load, fromUTF8?_toUTF8]
  dsimp only
  rw [hread]
  cases (s.keeping kept).validate <;> rfl

theorem load_render (h : s.Writable) :
    load s.render.toUTF8 =
      match s.validate with
      | .ok _ => .ok s
      | .error f => .error (.settings f) := by
  have hload := load_excerpt h (fun _ => true) fun _ => 0
  rwa [excerpt_all, keeping_all] at hload

/-- Settings that a file can hold come back from it, or are refused as `validate` refuses them. Those
taken out of the text come back as their defaults. What a file cannot hold does not touch it. -/
theorem store_load (s : Settings) (file : Option ByteArray) :
    (s.Writable →
      s.save = .ok s.render ∧ s.store file = .ok () (some s.render.toUTF8) ∧
      (load s.render.toUTF8 =
        match s.validate with
        | .ok _ => .ok s
        | .error f => .error (.settings f)) ∧
      ∀ kept gap, ∃ text, (s.keeping kept).save = .ok text ∧
        load (s.excerpt kept gap).toUTF8 = load text.toUTF8) ∧
    (¬ s.Writable →
      s.save = .error .unwritable ∧
      s.store file = .error (.fault (.settings .unwritable)) file) := by
  constructor
  · intro h
    have hsave : s.save = .ok s.render := if_pos h
    refine ⟨hsave, by rw [store, hsave]; rfl, load_render h, fun kept gap => ?_⟩
    have hkeeping := h.keeping kept
    refine ⟨(s.keeping kept).render, if_pos hkeeping, ?_⟩
    rw [load_excerpt h kept gap, load_render hkeeping]
  · intro h
    have hsave : s.save = .error .unwritable := if_neg h
    exact ⟨hsave, by rw [store, hsave]; rfl⟩

/-- The greatest values that a file holds, and a decay that is not positive. -/
def extremes : Settings where
  maxReplyDepth := 2 ^ 63 - 1
  maxTags := 2 ^ 63 - 1
  includeCategory := false
  hot := ⟨Int64.maxValue, Int64.maxValue⟩
  trending := ⟨Int64.maxValue, Int64.minValue⟩

theorem store_load_extremes :
    load extremes.render.toUTF8 = .error (.settings (.notPositive .trending extremes.trending)) ∧
    (∃ text, { extremes with trending := .trending }.save = .ok text ∧
      load (extremes.excerpt (· ≠ .trending) fun _ => 1).toUTF8 = load text.toUTF8) ∧
    { extremes with maxTags := 2 ^ 63 }.store (some extremes.render.toUTF8) =
      .error (.fault (.settings .unwritable)) (some extremes.render.toUTF8) := by
  have hwritable : extremes.Writable := ⟨by decide, by decide⟩
  obtain ⟨-, -, hload, htaken⟩ := (store_load extremes none).1 hwritable
  have hunwritable : ¬ Writable { extremes with maxTags := 2 ^ 63 } := fun h =>
    absurd h.2 (by decide)
  exact ⟨hload, htaken (· ≠ .trending) fun _ => 1, ((store_load _ _).2 hunwritable).2⟩

end Settings

end TagCatalog
