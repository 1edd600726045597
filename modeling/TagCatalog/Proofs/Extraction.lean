import TagCatalog.Classification
import TagCatalog.Proofs.LowerCase

/-! What a metadata text declares, and what an extraction makes of it. Names keep the order of the text
until they are cut to the limit; the category is added after the cut. -/

namespace TagCatalog

namespace Text

theorem pieces_eq_splitOnP (sep : Char → Bool) (cs : List Char) :
    pieces sep cs = cs.splitOnP sep := by
  induction cs with
  | nil => rfl
  | cons c cs ih =>
    rw [pieces, List.splitOnP_cons_eq_if_modifyHead, ← ih]
    split
    · rfl
    · cases hp : pieces sep cs with
      | nil => exact absurd hp (pieces_ne_nil sep cs)
      | cons p ps => rfl

end Text

/-- The name that a text stands for, empty if only white space is in it. -/
def nameOf (text : String) : String := String.ofList (Text.lower (Text.trim text.toList))

theorem normalizeName?_eq (text : String) :
    normalizeName? text = if nameOf text = "" then none else some (nameOf text) := by
  have hempty : nameOf text = "" ↔ Text.trim text.toList = [] := by
    rw [nameOf, ← Text.lower_eq_nil_iff, ← String.toList_inj, String.toList_ofList]
    rfl
  unfold normalizeName?
  split
  · rename_i htrim
    rw [if_pos (hempty.mpr htrim)]
  · rename_i htrim
    rw [if_neg (hempty.not.mpr htrim), nameOf]

theorem normalizeName?_ne_empty {s name : String} (h : normalizeName? s = some name) :
    name ≠ "" := by
  rw [normalizeName?_eq] at h
  split at h
  · cases h
  · rename_i hne
    exact Option.some.inj h ▸ hne

namespace Json

theorem digits_of_blank {cs : List Char} (h : ∀ c ∈ cs, Text.isBlank c = true) :
    digits cs = ([], cs) := by
  cases cs with
  | nil => rfl
  | cons c cs =>
    have hblank := h c List.mem_cons_self
    have hdigit : c.isDigit = false := by
      by_contra hd
      have hrange : 48 ≤ c.toNat ∧ c.toNat ≤ 57 := by
        simpa [Char.isDigit, UInt32.le_iff_toNat_le] using hd
      simp only [Text.isBlank, Text.blankRanges, List.any_cons, List.any_nil, Bool.or_eq_true,
        Bool.and_eq_true, decide_eq_true_eq, Bool.or_false] at hblank
      omega
    simp [digits, hdigit]

/-- White space that is none of JSON's starts no value, and neither does the end of a text. -/
theorem draft?_of_blank {cs : List Char} (h : ∀ c ∈ cs, Text.isBlank c = true) (fuel : Nat) :
    draft? fuel cs = none := by
  have hskip : ∀ c ∈ skipSpace cs, Text.isBlank c = true :=
    fun c hc => h c ((List.dropWhile_sublist _).subset hc)
  have hfirst {c : Char} {rest : List Char} (hcs : skipSpace cs = c :: rest) :
      Text.isBlank c = true := hskip c (by simp [hcs])
  have hnumeral : numeral? (skipSpace cs) = none := by
    unfold numeral?
    split
    · exact absurd (hfirst ‹_›) (by decide)
    · simp [unsigned?, wholePart?, digits_of_blank hskip]
  cases fuel with
  | zero => rfl
  | succ fuel =>
    unfold draft?
    split
    · exact absurd (hfirst ‹_›) (by decide)
    · exact absurd (hfirst ‹_›) (by decide)
    · exact absurd (hfirst ‹_›) (by decide)
    · exact absurd (hfirst ‹_›) (by decide)
    · exact absurd (hfirst ‹_›) (by decide)
    · exact absurd (hfirst ‹_›) (by decide)
    · simp [hnumeral]

theorem read?_of_blank {text : String} (h : Text.trim text.toList = []) : read? text = none := by
  simp [read?, Draft.read?, draft?_of_blank (Text.trim_eq_nil_iff.mp h)]

/-- The value that a text gives a member: of several of the name, the last. -/
def Declares (text name : String) (value : Json) : Prop :=
  ∃ front back, read? text = some (.obj (front ++ (name, value) :: back)) ∧ ∀ m ∈ back, m.1 ≠ name

theorem member?_eq_some_iff {name : String} {ms : List (String × Json)} {value : Json} :
    member? name ms = some value ↔
      ∃ front back, ms = front ++ (name, value) :: back ∧ ∀ m ∈ back, m.1 ≠ name := by
  rw [member?, Option.map_eq_some_iff]
  constructor
  · intro hh
    obtain ⟨m, hfind, rfl⟩ := hh
    obtain ⟨hname, back, front, hms, hback⟩ := List.find?_eq_some_iff_append.mp hfind
    refine ⟨front.reverse, back.reverse, ?_, by simpa using hback⟩
    rw [← of_decide_eq_true hname, ← List.reverse_reverse ms, hms]
    simp
  · intro hh
    obtain ⟨front, back, rfl, hback⟩ := hh
    refine ⟨(name, value), List.find?_eq_some_iff_append.mpr ?_, rfl⟩
    exact ⟨by simp, back.reverse, front.reverse, by simp, by simpa using hback⟩

end Json

namespace Classification

/-- The texts that a metadata text declares as tags. -/
inductive Declared (metadata : String) : List String → Prop
  | array {items : List Json} (h : Json.Declares metadata "tags" (.arr items)) :
    Declared metadata (items.filterMap Json.text?)
  | string {text : String} (h : Json.Declares metadata "tags" (.str text)) :
    Declared metadata ((text.toList.splitOnP fun c => Text.isBlank c || c = ',').map String.ofList)
  | none (h : ∀ value, Json.Declares metadata "tags" value →
      (∀ items, value ≠ .arr items) ∧ ∀ text, value ≠ .str text) : Declared metadata []

/-- The names of texts, each where it comes first. -/
def namesOf (texts : List String) : List String :=
  ((texts.map nameOf).filter (· ≠ "")).eraseDups

theorem filterMap_normalizeName? (texts : List String) :
    texts.filterMap normalizeName? = (texts.map nameOf).filter (· ≠ "") := by
  induction texts with
  | nil => rfl
  | cons text texts ih =>
    rw [List.map_cons, List.filterMap_cons, List.filter_cons, ih, normalizeName?_eq]
    by_cases hempty : nameOf text = ""
    · simp [hempty]
    · simp [hempty]

theorem declares_iff {metadata name : String} {value : Json} :
    Json.Declares metadata name value ↔ Json.member? name (members metadata) = some value := by
  unfold Json.Declares members
  cases hread : Json.read? metadata with
  | none => simp [Json.member?]
  | some value' =>
    cases value' with
    | obj ms => simp [Json.member?_eq_some_iff]
    | null => simp [Json.member?]
    | bool b => simp [Json.member?]
    | num n => simp [Json.member?]
    | str s => simp [Json.member?]
    | arr items => simp [Json.member?]

theorem declared_iff {metadata : String} {texts : List String} :
    Declared metadata texts ↔ texts = tagTexts (members metadata) := by
  have hcut (text : String) : Text.pieces isTagSeparator text.toList =
      text.toList.splitOnP fun c => Text.isBlank c || c = ',' := Text.pieces_eq_splitOnP _ _
  unfold tagTexts
  constructor
  · intro h
    cases h with
    | array h => rw [declares_iff.mp h]
    | string h => rw [declares_iff.mp h, ← hcut]
    | none h =>
      split
      · exact absurd rfl ((h _ (declares_iff.mpr ‹_›)).1 _)
      · exact absurd rfl ((h _ (declares_iff.mpr ‹_›)).2 _)
      · rfl
  · rintro rfl
    split
    · exact .array (declares_iff.mpr ‹_›)
    · rw [hcut]
      exact .string (declares_iff.mpr ‹_›)
    · rename_i harray hstring
      refine .none fun value hvalue => ?_
      have hmember := declares_iff.mp hvalue
      constructor
      · rintro items rfl
        exact harray items hmember
      · rintro text rfl
        exact hstring text hmember

/-- Names are taken in order, those that are there already apart, as long as there is room. -/
theorem mem_addUpTo {limit : Nat} {tags : Names} {names : List String} {name : String} :
    name ∈ addUpTo limit tags names ↔
      name ∈ tags ∨ name ∈ (names.filter (· ∉ tags)).eraseDups.take (limit - tags.size) := by
  induction names generalizing tags with
  | nil => simp [addUpTo]
  | cons first names ih =>
    rw [addUpTo]
    split
    · rename_i hfull
      simp [Nat.sub_eq_zero_of_le hfull]
    · rename_i hroom
      rw [ih]
      by_cases hfirst : first ∈ tags
      · have hsame (other : String) : other ∈ tags.insert first ↔ other ∈ tags := by
          simp only [Std.ExtTreeSet.mem_insert, Std.compare_eq_iff_eq]
          exact ⟨fun h => h.elim (fun h => h ▸ hfirst) id, .inr⟩
        have hsize : (tags.insert first).size = tags.size := by
          simp [Std.ExtTreeSet.size_insert, hfirst]
        simp only [hsame, hsize, List.filter_cons, hfirst, not_true_eq_false, decide_false,
          Bool.false_eq_true, if_false]
      · have hsize : (tags.insert first).size = tags.size + 1 := by
          simp [Std.ExtTreeSet.size_insert, hfirst]
        have hleft : limit - tags.size = limit - (tags.size + 1) + 1 := by omega
        have hothers : (names.filter (· ∉ tags)).filter (fun other => !other == first) =
            names.filter (· ∉ tags.insert first) := by
          rw [List.filter_filter]
          refine List.filter_congr fun other _ => ?_
          by_cases hother : other = first
          · simp [hother]
          · simp [hother, Ne.symm hother]
        simp only [hsize, hleft, List.filter_cons, hfirst, not_false_eq_true, decide_true, if_true,
          List.eraseDups_cons, List.take_succ_cons, List.mem_cons, hothers,
          Std.ExtTreeSet.mem_insert, Std.compare_eq_iff_eq]
        rw [eq_comm, or_assoc, or_left_comm]

theorem size_addUpTo_le {limit : Nat} {tags : Names} (h : tags.size ≤ limit)
    (names : List String) : (addUpTo limit tags names).size ≤ limit := by
  induction names generalizing tags with
  | nil => exact h
  | cons name names ih =>
    rw [addUpTo]
    split
    · exact h
    · refine ih (Nat.le_trans Std.ExtTreeSet.size_insert_le ?_)
      omega

theorem mem_withCategory {s : Settings} {category name : String} {tags : Names} :
    name ∈ withCategory s category tags ↔
      name ∈ tags ∨ (s.includeCategory = true ∧ nameOf category ≠ "") ∧ name = nameOf category := by
  unfold withCategory
  by_cases hinclude : s.includeCategory = true
  · by_cases hempty : nameOf category = ""
    · simp [hinclude, normalizeName?_eq, hempty]
    · simp only [hinclude, if_true, normalizeName?_eq, hempty, if_false, ne_eq, not_false_eq_true,
        and_true, true_and, Std.ExtTreeSet.mem_insert, Std.compare_eq_iff_eq]
      rw [or_comm, eq_comm]
  · simp [hinclude]

theorem mem_orUntagged {tags : Names} {name : String} :
    name ∈ orUntagged tags ↔ name ∈ tags ∨ (∀ other, other ∉ tags) ∧ name = "" := by
  unfold orUntagged
  split
  · rename_i hempty
    obtain rfl := Std.ExtTreeSet.isEmpty_iff.mp hempty
    simp only [Std.ExtTreeSet.mem_insert, Std.compare_eq_iff_eq, Std.ExtTreeSet.not_mem_empty,
      not_false_eq_true, implies_true, true_and, or_false, false_or]
    exact eq_comm
  · rename_i hfull
    have hnone := Std.ExtTreeSet.isEmpty_iff.trans
      (Std.ExtTreeSet.eq_empty_iff_forall_not_mem (t := tags))
    have hsome := hnone.not.mp hfull
    simp only [hsome, false_and, or_false]

theorem size_withCategory_le (s : Settings) (category : String) (tags : Names) :
    (withCategory s category tags).size ≤ tags.size + 1 := by
  unfold withCategory
  split
  · split
    · exact Std.ExtTreeSet.size_insert_le
    · exact Nat.le_succ _
  · exact Nat.le_succ _

theorem size_orUntagged (tags : Names) :
    1 ≤ (orUntagged tags).size ∧ (orUntagged tags).size ≤ max 1 tags.size := by
  unfold orUntagged
  split
  · rename_i hempty
    obtain rfl := Std.ExtTreeSet.isEmpty_iff.mp hempty
    simp [Std.ExtTreeSet.size_insert]
  · rename_i hfull
    have hnone := Std.ExtTreeSet.isEmpty_iff.trans
      (Std.ExtTreeSet.eq_empty_iff_size_eq_zero (t := tags))
    have hsize := hnone.not.mp hfull
    omega

/-- The declared names that there is room for, and the category behind them. -/
def chosen (s : Settings) (category : String) (texts : List String) : List String :=
  (namesOf texts).take s.maxTags ++
    if s.includeCategory && nameOf category ≠ "" then [nameOf category] else []

theorem mem_tags_extract {s : Settings} {category metadata name : String} {texts : List String}
    (h : Declared metadata texts) : name ∈ (extract s category metadata).tags ↔
      name ∈ chosen s category texts ∨ chosen s category texts = [] ∧ name = "" := by
  have hchosen (name : String) : name ∈ withCategory s category
      (addUpTo s.maxTags ∅ ((tagTexts (members metadata)).filterMap normalizeName?)) ↔
        name ∈ chosen s category texts := by
    rw [mem_withCategory, mem_addUpTo, ← declared_iff.mp h, filterMap_normalizeName?]
    by_cases hcategory : s.includeCategory = true ∧ nameOf category ≠ ""
    · simp [chosen, namesOf, hcategory]
    · simp [chosen, namesOf, hcategory]
  simp only [extract, mem_orUntagged, hchosen, List.eq_nil_iff_forall_not_mem]

theorem language_extract (s : Settings) (category metadata : String) :
    (∀ text, Json.Declares metadata "language" (.str text) →
        (extract s category metadata).language = nameOf text) ∧
      ((∀ text, ¬ Json.Declares metadata "language" (.str text)) →
        (extract s category metadata).language = "") := by
  simp only [declares_iff, extract, declaredLanguage]
  constructor
  · intro text htext
    simp only [htext, Option.bind_some, Json.text?, normalizeName?_eq]
    split
    · rename_i hempty
      rw [hempty, Option.getD_none]
    · rfl
  · intro hnone
    cases hmember : Json.member? "language" (members metadata) with
    | none => rfl
    | some value =>
      cases value with
      | str text => exact absurd hmember (hnone text)
      | null => rfl
      | bool b => rfl
      | num n => rfl
      | arr items => rfl
      | obj ms => rfl

theorem Declared.of_blank {metadata : String} (h : Text.trim metadata.toList = []) :
    Declared metadata [] := by
  refine .none fun value hvalue => ?_
  obtain ⟨front, back, hread, -⟩ := hvalue
  simp [Json.read?_of_blank h] at hread

theorem not_mem_chosen (s : Settings) (category : String) (texts : List String) :
    "" ∉ chosen s category texts := by
  intro hmem
  rcases List.mem_append.mp hmem with hmem | hmem
  · have hname := List.mem_of_mem_take hmem
    simp [namesOf] at hname
  · by_cases hcategory : s.includeCategory = true ∧ nameOf category ≠ ""
    · simp [hcategory] at hmem
    · simp [hcategory] at hmem

theorem size_extract (s : Settings) (category metadata : String) :
    1 ≤ (extract s category metadata).tags.size ∧
      (extract s category metadata).tags.size ≤ s.maxTags + 1 := by
  let names := (tagTexts (members metadata)).filterMap normalizeName?
  have hdeclared : (addUpTo s.maxTags ∅ names).size ≤ s.maxTags := size_addUpTo_le (by simp) names
  have hcategory := size_withCategory_le s category (addUpTo s.maxTags ∅ names)
  have htags := size_orUntagged (withCategory s category (addUpTo s.maxTags ∅ names))
  refine ⟨htags.1, htags.2.trans (Nat.max_le.mpr ⟨?_, ?_⟩)⟩
  · omega
  · omega

/-- An extraction takes the first names that are declared, up to the limit, and the category. -/
theorem extract_exact (s : Settings) (category metadata : String) :
    let cl := extract s category metadata
    ∃ texts, (∀ others, Declared metadata others ↔ others = texts) ∧
      (Text.trim metadata.toList = [] → texts = []) ∧
      (∀ name, name ∈ cl.tags ↔
        name ∈ chosen s category texts ∨ chosen s category texts = [] ∧ name = "") ∧
      (∀ name ∈ (namesOf texts).take s.maxTags, name ∈ cl.tags) ∧
      (∀ text, Json.Declares metadata "language" (.str text) → cl.language = nameOf text) ∧
      ((∀ text, ¬ Json.Declares metadata "language" (.str text)) → cl.language = "") ∧
      1 ≤ cl.tags.size ∧ cl.tags.size ≤ s.maxTags + 1 ∧
      ("" ∈ cl.tags → ∀ name ∈ cl.tags, name = "") := by
  intro cl
  let texts := tagTexts (members metadata)
  have hdeclared : Declared metadata texts := declared_iff.mpr rfl
  have htags (name : String) : name ∈ cl.tags ↔
      name ∈ chosen s category texts ∨ chosen s category texts = [] ∧ name = "" :=
    mem_tags_extract hdeclared
  obtain ⟨hlanguage, hnone⟩ := language_extract s category metadata
  obtain ⟨hleast, hmost⟩ := size_extract s category metadata
  refine ⟨texts, fun others => declared_iff, ?_, htags, ?_, hlanguage, hnone, hleast, hmost, ?_⟩
  · intro hblank
    exact (declared_iff.mp (.of_blank hblank)).symm
  · intro name hname
    exact (htags name).mpr (.inl (List.mem_append_left _ hname))
  · intro hempty name hname
    rcases (htags "").mp hempty with hmem | ⟨hnil, -⟩
    · exact absurd hmem (not_mem_chosen s category texts)
    · simpa [hnil] using (htags name).mp hname

/-- Two of three names fit, the third not, and the category joins them. -/
theorem extract_exact_news :
    let s : Settings := { maxTags := 2 }
    let metadata :=
      "\x7b\"tags\":\"x\",\"language\":\" EN\",\"tags\":[\" B\",\"a\",7,\"b\",\"\",\"c\"]\x7d"
    let cl := extract s "News" metadata
    cl.tags.toList = ["a", "b", "news"] ∧ cl.language = "en" ∧
      ∃ texts, Declared metadata texts ∧ ∀ name, name ∈ cl.tags ↔
        name ∈ chosen s "News" texts ∨ chosen s "News" texts = [] ∧ name = "" := by
  intro s metadata cl
  obtain ⟨texts, hdeclared, -, htags, -⟩ := extract_exact s "News" metadata
  exact ⟨by decide +kernel, by decide +kernel, texts, (hdeclared texts).mpr rfl, htags⟩

end Classification

end TagCatalog
