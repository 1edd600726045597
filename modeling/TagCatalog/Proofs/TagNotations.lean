import TagCatalog.Proofs.Extraction

/-! The two notations of tags, an array and one line of text. A line is cut where its separators are,
and what is empty between them is no name. -/

namespace TagCatalog

namespace Classification

/-- Texts one after another, each with the separators behind it. There are none inside the texts, at
least one between two of them, and there may be some around them. -/
structure TagLine where
  lead : List Char
  items : List (String × List Char)
  lead_separates : ∀ c ∈ lead, isTagSeparator c = true
  separates : ∀ item ∈ items, ∀ c ∈ item.2, isTagSeparator c = true
  apart : ∀ item ∈ items.dropLast, item.2 ≠ []
  whole : ∀ item ∈ items, ∀ c ∈ item.1.toList, isTagSeparator c = false

namespace TagLine

def texts (line : TagLine) : List String := line.items.map (·.1)

def text (line : TagLine) : String :=
  String.ofList (line.lead ++ line.items.flatMap fun item => item.1.toList ++ item.2)

end TagLine

/-- The names in a line, in the order in which they stand there. -/
def lineNames (cs : List Char) : List String :=
  ((Text.pieces isTagSeparator cs).map String.ofList).filterMap normalizeName?

theorem lineNames_nil : lineNames [] = [] := rfl

theorem names_cons (text : String) (texts : List String) :
    (text :: texts).filterMap normalizeName? =
      (normalizeName? text).toList ++ texts.filterMap normalizeName? := by
  rw [List.filterMap_cons]
  cases normalizeName? text <;> rfl

theorem lineNames_text {text : String} (h : ∀ c ∈ text.toList, isTagSeparator c = false) :
    lineNames text.toList = (normalizeName? text).toList := by
  rw [lineNames, Text.pieces_eq_splitOnP, List.splitOnP_eq_singleton h, List.map_singleton,
    String.ofList_toList, names_cons, List.filterMap_nil, List.append_nil]

theorem lineNames_append_cons {c : Char} (hc : isTagSeparator c = true) (before after : List Char) :
    lineNames (before ++ c :: after) = lineNames before ++ lineNames after := by
  simp only [lineNames, Text.pieces_eq_splitOnP, List.splitOnP_append_cons _ _ hc, List.map_append,
    List.filterMap_append]

theorem lineNames_run_append {run : List Char} (h : ∀ c ∈ run, isTagSeparator c = true)
    (cs : List Char) : lineNames (run ++ cs) = lineNames cs := by
  induction run with
  | nil => rfl
  | cons c run ih =>
    have hrest := ih fun d hd => h d (List.mem_cons_of_mem c hd)
    have hcut := lineNames_append_cons (h c List.mem_cons_self) [] (run ++ cs)
    rw [lineNames_nil, List.nil_append, List.nil_append] at hcut
    rw [List.cons_append, hcut, hrest]

theorem lineNames_items {items : List (String × List Char)}
    (hseparates : ∀ item ∈ items, ∀ c ∈ item.2, isTagSeparator c = true)
    (hapart : ∀ item ∈ items.dropLast, item.2 ≠ [])
    (hwhole : ∀ item ∈ items, ∀ c ∈ item.1.toList, isTagSeparator c = false) :
    lineNames (items.flatMap fun item => item.1.toList ++ item.2) =
      (items.map (·.1)).filterMap normalizeName? := by
  induction items with
  | nil => rfl
  | cons item items ih =>
    obtain ⟨text, run⟩ := item
    have htext := lineNames_text (hwhole _ List.mem_cons_self)
    rw [List.map_cons, names_cons, List.flatMap_cons]
    cases run with
    | nil =>
      -- Only the last text has no separator behind it.
      have hlast : items = [] := by
        by_contra hne
        refine hapart (text, []) ?_ rfl
        rw [List.dropLast_cons_of_ne_nil hne]
        exact List.mem_cons_self
      subst hlast
      simpa using htext
    | cons c run =>
      have hrun := hseparates _ List.mem_cons_self
      have hitems : ∀ item ∈ items.dropLast, item.2 ≠ [] := by
        intro item hitem
        have hne : items ≠ [] := by
          rintro rfl
          cases hitem
        refine hapart item ?_
        rw [List.dropLast_cons_of_ne_nil hne]
        exact List.mem_cons_of_mem _ hitem
      have hrest := ih (fun item h => hseparates item (List.mem_cons_of_mem _ h)) hitems
        fun item h => hwhole item (List.mem_cons_of_mem _ h)
      rw [List.append_assoc, List.cons_append,
        lineNames_append_cons (hrun c List.mem_cons_self), htext,
        lineNames_run_append (fun d hd => hrun d (List.mem_cons_of_mem c hd)), hrest]

theorem TagLine.lineNames_text (line : TagLine) :
    lineNames line.text.toList = line.texts.filterMap normalizeName? := by
  rw [TagLine.text, String.toList_ofList, lineNames_run_append line.lead_separates]
  exact lineNames_items line.separates line.apart line.whole

theorem names_of_line {metadata text : String} (h : Json.Declares metadata "tags" (.str text)) :
    (tagTexts (members metadata)).filterMap normalizeName? = lineNames text.toList := by
  rw [tagTexts, declares_iff.mp h]
  rfl

theorem names_of_array {metadata : String} {texts : List String}
    (h : Json.Declares metadata "tags" (.arr (texts.map .str))) :
    (tagTexts (members metadata)).filterMap normalizeName? = texts.filterMap normalizeName? := by
  have htexts : (texts.map Json.str).filterMap Json.text? = texts := by
    rw [List.filterMap_map]
    exact List.filterMap_some
  rw [tagTexts, declares_iff.mp h]
  exact congrArg (List.filterMap normalizeName?) htexts

theorem declaredLanguage_congr {array line : String}
    (h : ∀ value, Json.Declares array "language" value ↔ Json.Declares line "language" value) :
    declaredLanguage (members array) = declaredLanguage (members line) := by
  have hmember : Json.member? "language" (members array) = Json.member? "language" (members line) := by
    apply Option.ext
    intro value
    rw [← declares_iff, ← declares_iff, h]
  rw [declaredLanguage, declaredLanguage, hmember]

/-- Tags in an array and the same tags in one line, with the same language or none, come to the same
classification. -/
theorem extract_notations (s : Settings) (category : String) (tags : TagLine) {array line : String}
    (harray : Json.Declares array "tags" (.arr (tags.texts.map .str)))
    (hline : Json.Declares line "tags" (.str tags.text))
    (hlanguage : ∀ value,
      Json.Declares array "language" value ↔ Json.Declares line "language" value) :
    extract s category array = extract s category line := by
  have hnames : (tagTexts (members array)).filterMap normalizeName? =
      (tagTexts (members line)).filterMap normalizeName? := by
    rw [names_of_array harray, names_of_line hline, tags.lineNames_text]
  simp only [extract, hnames, declaredLanguage_congr hlanguage]

/-- Four texts, one of them empty, with all kinds of separators. -/
def phosLine : TagLine where
  lead := [' ', ',']
  items := [("ΦΩΣ", [',', ' ']), ("", [',']), ("Life", ['\u3000']), ("photo", [])]
  lead_separates := by simp; decide
  separates := by simp; decide
  apart := by simp
  whole := by simp; decide

/-- A capital sigma that ends a tag ends it in both notations, and the limit leaves no room for the
third name in either. -/
theorem extract_notations_phos :
    let array := "\x7b\"language\":\"EN\",\"tags\":[\"ΦΩΣ\",\"\",\"Life\",\"photo\"]\x7d"
    let line := "\x7b\"tags\":\" ,ΦΩΣ, ,Life\u3000photo\",\"language\":\"EN\"\x7d"
    Json.Declares array "tags" (.arr (phosLine.texts.map .str)) ∧
      Json.Declares line "tags" (.str phosLine.text) ∧
      (∀ value, Json.Declares array "language" value ↔ Json.Declares line "language" value) ∧
      extract { maxTags := 2 } "" array = extract { maxTags := 2 } "" line ∧
      (extract { maxTags := 2 } "" line).tags.toList = ["life", "φως"] := by
  intro array line
  have hmembers : members array =
      [("language", .str "EN"), ("tags", .arr (phosLine.texts.map .str))] := by cbv
  have hmembers' : members line = [("tags", .str phosLine.text), ("language", .str "EN")] := by cbv
  have harray : Json.Declares array "tags" (.arr (phosLine.texts.map .str)) := by
    rw [declares_iff, hmembers]
    rfl
  have hline : Json.Declares line "tags" (.str phosLine.text) := by
    rw [declares_iff, hmembers']
    rfl
  have hlanguage (value : Json) :
      Json.Declares array "language" value ↔ Json.Declares line "language" value := by
    rw [declares_iff, declares_iff, hmembers, hmembers']
    rfl
  exact ⟨harray, hline, hlanguage, extract_notations _ "" phosLine harray hline hlanguage,
    by decide +kernel⟩

end Classification

end TagCatalog
