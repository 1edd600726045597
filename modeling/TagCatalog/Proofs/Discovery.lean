import TagCatalog.Proofs.Admission
import TagCatalog.Proofs.Audit
import TagCatalog.Proofs.Course
import TagCatalog.Proofs.Extraction
import TagCatalog.Proofs.InStep
import TagCatalog.Proofs.Listings
import TagCatalog.Proofs.Scores

/-! Answers of queries. While entries say what the metadata says now, looking through the lists of a few
topics finds just what a scan of the whole ledger would find, in the same order. -/

namespace TagCatalog

/-! ## The order of answers -/

namespace SortOrder

variable {order : SortOrder} {a b : Entry}

/-- Further up in a ranking: of a greater score, in the total order of doubles, or created in a later
second. -/
def Above (order : SortOrder) (a b : Entry) : Prop :=
  match order with
  | .hot => b.hot.Below a.hot
  | .trending => b.trending.Below a.trending
  | .created => b.created.seconds < a.created.seconds

/-- Content of entries that are level goes by its id. -/
def Ahead (order : SortOrder) (a b : Entry) : Prop :=
  order.Above a b ∨ ¬ order.Above b a ∧ a.content < b.content

theorem above_iff : order.Above a b ↔ order.key b < order.key a := by
  cases order with
  | hot => exact Score.rank_lt_iff.symm
  | trending => exact Score.rank_lt_iff.symm
  | created => exact Iff.rfl

theorem ahead_iff : order.Ahead a b ↔
    order.key b < order.key a ∨ order.key a = order.key b ∧ a.content < b.content := by
  rw [Ahead, above_iff, above_iff]
  omega

instance : Decidable (order.Ahead a b) := decidable_of_iff' _ ahead_iff

/-- Of two keys with an id the greater key comes first, and of equal keys the lesser id. -/
def before (a b : Int × Nat) : Bool := b.1 < a.1 || (a.1 = b.1 && a.2 ≤ b.2)

theorem ahead_of_before (hne : a.content ≠ b.content)
    (h : before (order.key a, a.content) (order.key b, b.content) = true) : order.Ahead a b := by
  simp only [before, Bool.or_eq_true, Bool.and_eq_true, decide_eq_true_eq] at h
  rw [ahead_iff]
  omega

theorem before_trans {a b c : Int × Nat} (hab : before a b = true) (hbc : before b c = true) :
    before a c = true := by
  simp only [before, Bool.or_eq_true, Bool.and_eq_true, decide_eq_true_eq] at hab hbc ⊢
  omega

theorem before_total (a b : Int × Nat) : (before a b || before b a) = true := by
  simp only [before, Bool.or_eq_true, Bool.and_eq_true, decide_eq_true_eq]
  omega

theorem before_antisymm {a b : Int × Nat} (hab : before a b = true) (hba : before b a = true) :
    a = b := by
  simp only [before, Bool.or_eq_true, Bool.and_eq_true, decide_eq_true_eq] at hab hba
  have hkey : a.1 = b.1 := by omega
  have hid : a.2 = b.2 := by omega
  exact Prod.ext hkey hid

theorem pairwise_mergeSort {α : Type} (place : α → Int × Nat) (l : List α) :
    (l.mergeSort fun a b => before (place a) (place b)).Pairwise fun a b =>
      before (place a) (place b) = true := by
  refine List.pairwise_mergeSort ?_ ?_ l
  · exact fun a b c hab hbc => before_trans hab hbc
  · exact fun a b => before_total (place a) (place b)

/-- Entries of different contents have one order. -/
theorem mergeSort_precedes {es sorted : List Entry} (hperm : sorted.Perm es)
    (hsorted : sorted.Pairwise fun a b => order.precedes a b = true)
    (hnodup : (es.map (·.content)).Nodup) : es.mergeSort order.precedes = sorted := by
  have hperm' := (List.mergeSort_perm es order.precedes).trans hperm.symm
  refine hperm'.eq_of_pairwise ?_ (pairwise_mergeSort (fun e => (order.key e, e.content)) es) hsorted
  intro a b ha hb hab hba
  have hcontent : a.content = b.content := congrArg Prod.snd (before_antisymm hab hba)
  exact List.inj_on_of_nodup_map hnodup (List.mem_mergeSort.mp ha) (hperm.subset hb) hcontent

end SortOrder

namespace Query

open SortOrder

def ranked (key : Nat → Int) (ids : List Nat) : List Nat :=
  ids.mergeSort fun a b => before (key a, a) (key b, b)

theorem ranked_eq_of_pairwise {key : Nat → Int} {ids l : List Nat} (hperm : l.Perm ids)
    (hl : l.Pairwise fun a b => before (key a, a) (key b, b) = true) : l = ranked key ids := by
  have hperm' : l.Perm (ranked key ids) := hperm.trans (List.mergeSort_perm _ _).symm
  refine hperm'.eq_of_pairwise ?_ hl (pairwise_mergeSort (fun id => (key id, id)) ids)
  intro a b _ _ hab hba
  exact congrArg Prod.snd (before_antisymm hab hba)

/-! ## Picking from candidates -/

/-- All that `pick` would find without a limit. -/
def distinct (admits : Nat → Bool) (seen : List Nat) : List Entry → List Nat
  | [] => []
  | e :: es =>
    if seen.contains e.content then distinct admits seen es
    else if admits e.content then e.content :: distinct admits (e.content :: seen) es
    else distinct admits (e.content :: seen) es

variable {admits : Nat → Bool} {seen : List Nat} {es : List Entry} {order : SortOrder}

theorem pick_eq_take (room : Nat) :
    pick admits room seen es = (distinct admits seen es).take room := by
  induction es generalizing room seen with
  | nil => cases room <;> simp [pick, distinct]
  | cons e es ih =>
    cases room with
    | zero => simp [pick]
    | succ room =>
      unfold pick distinct
      by_cases hseen : seen.contains e.content = true
      · rw [if_pos hseen, if_pos hseen, ih]
      · rw [if_neg hseen, if_neg hseen]
        split
        · rw [ih, List.take_succ_cons]
        · rw [ih]

theorem mem_distinct {id : Nat} :
    id ∈ distinct admits seen es ↔
      admits id = true ∧ id ∉ seen ∧ ∃ e ∈ es, e.content = id := by
  induction es generalizing seen with
  | nil => simp [distinct]
  | cons e es ih =>
    unfold distinct
    by_cases hseen : seen.contains e.content = true
    · have hmem : e.content ∈ seen := List.contains_iff_mem.mp hseen
      rw [if_pos hseen, ih]
      refine and_congr_right fun _ => and_congr_right fun hid => ?_
      have hne : e.content ≠ id := fun h => hid (h ▸ hmem)
      simp [hne]
    · have hmem : e.content ∉ seen := fun h => hseen (List.contains_iff_mem.mpr h)
      rw [if_neg hseen]
      by_cases hid : e.content = id
      · subst hid
        split
        · rename_i hadmits
          simp [hadmits, hmem]
        · rename_i hadmits
          simp [ih, hadmits]
      · have hrest : id ∈ distinct admits (e.content :: seen) es ↔
            admits id = true ∧ id ∉ seen ∧ ∃ a ∈ e :: es, a.content = id := by
          simp [ih, hid, Ne.symm hid]
        split
        · simp [Ne.symm hid, hrest]
        · exact hrest

theorem distinct_sublist :
    (distinct admits seen es).Sublist ((es.filter fun e => admits e.content).map (·.content)) := by
  induction es generalizing seen with
  | nil => exact .slnil
  | cons e es ih =>
    rw [distinct, List.filter_cons]
    by_cases hadmits : admits e.content = true
    · rw [if_pos hadmits, if_pos hadmits, List.map_cons]
      split
      · exact ih.cons _
      · exact ih.cons_cons _
    · rw [if_neg hadmits, if_neg hadmits]
      split
      · exact ih
      · exact ih

theorem nodup_distinct : (distinct admits seen es).Nodup := by
  induction es generalizing seen with
  | nil => exact List.nodup_nil
  | cons e es ih =>
    unfold distinct
    split
    · exact ih
    · split
      · refine List.nodup_cons.mpr ⟨fun h => ?_, ih⟩
        exact (mem_distinct.mp h).2.1 List.mem_cons_self
      · exact ih

/-- Where the entries of one admitted content rank alike, an answer depends on which content has
candidates and on nothing else of them. -/
theorem pick_mergeSort (key : Nat → Int)
    (hkey : ∀ e ∈ es, admits e.content = true → order.key e = key e.content)
    {ids : List Nat} (hnodup : ids.Nodup)
    (hids : ∀ id, id ∈ ids ↔ admits id = true ∧ ∃ e ∈ es, e.content = id) (room : Nat) :
    pick admits room [] (es.mergeSort order.precedes) = (ranked key ids).take room := by
  rw [pick_eq_take]
  refine congrArg (List.take room) (ranked_eq_of_pairwise ?_ ?_)
  · rw [List.perm_ext_iff_of_nodup nodup_distinct hnodup]
    intro id
    simp [mem_distinct, hids]
  · have hsorted := pairwise_mergeSort (fun e => (order.key e, e.content)) es
    refine List.Pairwise.sublist distinct_sublist (List.pairwise_map.mpr ?_)
    refine (hsorted.filter _).imp_of_mem ?_
    intro a b ha hb hab
    have hadmitted (e : Entry) (he : e ∈ (es.mergeSort order.precedes).filter fun e =>
        admits e.content) : order.key e = key e.content := by
      obtain ⟨hmem, hadmits⟩ := List.mem_filter.mp he
      exact hkey e (List.mem_mergeSort.mp hmem) hadmits
    rw [hadmitted a ha, hadmitted b hb] at hab
    exact hab

end Query

/-! ## What the lists of topics hold -/

theorem EntryTable.Coherent.mem_hot {t : EntryTable} (h : t.Coherent) {topic : Topic} {e : Entry} :
    e ∈ t.hot topic ↔
      (∃ id, t.get? id = some e) ∧ e.topic = topic ∧ e.hot.rank ≤ Score.infinity.rank := by
  have htop : (compare e.hot .infinity).isLE = true ↔ e.hot.rank ≤ Score.infinity.rank :=
    Std.isLE_compare (α := Int)
  rw [← htop]
  exact h.mem_listed h.ordered.hot

theorem EntryTable.Coherent.mem_flatMap_hot {t : EntryTable} (h : t.Coherent) {topics : List Topic}
    {e : Entry} :
    e ∈ topics.flatMap t.hot ↔
      (∃ id, t.get? id = some e) ∧ e.topic ∈ topics ∧ e.hot.rank ≤ Score.infinity.rank := by
  simp only [List.mem_flatMap, h.mem_hot]
  constructor
  · intro hh
    obtain ⟨topic, htopic, he, rfl, hle⟩ := hh
    exact ⟨he, htopic, hle⟩
  · intro hh
    obtain ⟨he, htopic, hle⟩ := hh
    exact ⟨e.topic, htopic, he, rfl, hle⟩

theorem Catalog.Sound.mem_topicRows {c : Catalog} (h : c.Sound) {topic : Topic} :
    topic ∈ c.totals.topicRows.map (·.topic) ↔ (c.totals.topic? topic).isSome = true := by
  simp only [List.mem_map, h.keyed.mem_topicRows, Option.isSome_iff_exists]
  constructor
  · intro hh
    obtain ⟨row, hrow, rfl⟩ := hh
    exact ⟨row, hrow⟩
  · intro hh
    obtain ⟨row, hrow⟩ := hh
    have hkey := h.keyed.topics topic row hrow
    exact ⟨row, hkey.symm ▸ hrow, hkey⟩

theorem Catalog.Sound.topic_mem_rows {c : Catalog} (h : c.Sound) {id : Nat} {e : Entry}
    (he : c.table.get? id = some e) : e.topic ∈ c.totals.topicRows.map (·.topic) := by
  obtain ⟨row, hrow⟩ := h.totals.topics.exists_row (EntryTable.mem_toList.mpr ⟨id, he⟩)
  exact h.mem_topicRows.mpr (Option.isSome_iff_exists.mpr ⟨row, hrow⟩)

/-! ## Names that can match -/

theorem Classification.exists_tag (s : Settings) (category jsonMetadata : String) :
    ∃ name, name ∈ (extract s category jsonMetadata).tags := by
  simp only [extract]
  generalize withCategory _ _ _ = tags
  unfold orUntagged
  split
  · exact ⟨"", by simp⟩
  · rename_i h
    have hne : tags.toList ≠ [] := by simpa using h
    obtain ⟨name, hname⟩ := List.exists_mem_of_ne_nil _ hne
    exact ⟨name, Std.ExtTreeSet.mem_toList.mp hname⟩

theorem ContentSource.exists_tag (source : ContentSource) (s : Settings) (content : Content) :
    ∃ name, name ∈ (source.classify s content).tags :=
  Classification.exists_tag s _ content.jsonMetadata

namespace Query

variable {q : Query} {cl : Classification} {s : Settings}

theorem mem_normalizeNames {names : Names} {name : String} :
    name ∈ normalizeNames names ↔ ∃ given ∈ names, normalizeName? given = some name := by
  simp only [normalizeNames, Std.ExtTreeSet.mem_ofList, List.contains_iff_mem, List.mem_filterMap,
    Std.ExtTreeSet.mem_toList]

theorem prepare_selects_language {name : String} (h : name ∈ q.prepare.selectLanguages) :
    name ≠ "" := by
  obtain ⟨given, -, hgiven⟩ := mem_normalizeNames.mp h
  exact normalizeName?_ne_empty hgiven

theorem Suits.exists_tag (h : q.Suits cl) (hselects : q.selectsTags = true) :
    ∃ tag ∈ cl.tags, tag ∈ q.selectTags :=
  h.tag_selected.resolve_left (selectsTags_iff.mp hselects)

theorem Suits.language_mem (h : q.Suits cl) (hselects : q.selectsLanguages = true) :
    cl.language ∈ q.selectLanguages :=
  h.language_selected.resolve_left (selectsLanguages_iff.mp hselects)

theorem admitsContent_iff {source : ContentSource} {id : Nat} :
    q.admitsContent s source id = true ↔
      ∃ content, source.byId? id = some content ∧ q.Suits (source.classify s content) := by
  simp only [admitsContent, Option.any_eq_true, admits_iff_suits]

end Query

/-! ## Answers -/

namespace Catalog

def Alike (c : Catalog) (content : Nat) : Prop :=
  ∀ a ∈ c.entriesOfContent content, ∀ b ∈ c.entriesOfContent content,
    a.hot = b.hot ∧ a.trending = b.trending ∧ a.created = b.created

/-- Entries of content that a ledger still has are under the topics of its metadata now, and they rank
alike. -/
structure Current (s : Settings) (l : Ledger) (c : Catalog) : Prop where
  topics : ∀ id content, l.byId? id = some content → c.entriesOfContent id ≠ [] →
    c.topicsOfContent id = .ofList (l.source.classify s content).topics
  alike : ∀ id content, l.byId? id = some content → c.Alike id

/-- What content ranks by: the key of its first entry. -/
def keyOf (c : Catalog) (order : SortOrder) (content : Nat) : Int :=
  ((c.entriesOfContent content).head?.map order.key).getD 0

theorem alike_of_toList {c : Catalog} (h : c.Sound)
    (halike : ∀ a ∈ c.table.toList, ∀ b ∈ c.table.toList, a.content = b.content →
      a.hot = b.hot ∧ a.trending = b.trending ∧ a.created = b.created) (content : Nat) :
    c.Alike content := by
  intro a ha b hb
  obtain ⟨hlivea, hcontenta⟩ := (mem_entriesOfContent h).mp ha
  obtain ⟨hliveb, hcontentb⟩ := (mem_entriesOfContent h).mp hb
  exact halike a (EntryTable.mem_toList.mpr hlivea) b (EntryTable.mem_toList.mpr hliveb)
    (hcontenta.trans hcontentb.symm)

/-- An entry of the one content is ahead of an entry of the other. -/
def Outranks (c : Catalog) (order : SortOrder) (a b : Nat) : Prop :=
  ∃ e ∈ c.entriesOfContent a, ∃ f ∈ c.entriesOfContent b, order.Ahead e f

instance {c : Catalog} {order : SortOrder} {a b : Nat} : Decidable (c.Outranks order a b) :=
  inferInstanceAs (Decidable (∃ e ∈ c.entriesOfContent a, ∃ f ∈ c.entriesOfContent b, order.Ahead e f))

theorem Alike.key_eq {c : Catalog} {content : Nat} (h : c.Alike content) (order : SortOrder)
    {a b : Entry} (ha : a ∈ c.entriesOfContent content) (hb : b ∈ c.entriesOfContent content) :
    order.key a = order.key b := by
  obtain ⟨hhot, htrending, hcreated⟩ := h a ha b hb
  cases order with
  | hot => simp [SortOrder.key, hhot]
  | trending => simp [SortOrder.key, htrending]
  | created => simp [SortOrder.key, hcreated]

theorem exists_keyOf {c : Catalog} (order : SortOrder) {content : Nat}
    (h : c.entriesOfContent content ≠ []) :
    ∃ e ∈ c.entriesOfContent content, order.key e = c.keyOf order content := by
  obtain ⟨e, rest, hentries⟩ := List.exists_cons_of_ne_nil h
  exact ⟨e, by simp [hentries], by simp [keyOf, hentries]⟩

theorem key_eq_keyOf {c : Catalog} (h : c.Sound) (order : SortOrder) {id : Nat} {e : Entry}
    (he : c.table.get? id = some e) (halike : c.Alike e.content) :
    order.key e = c.keyOf order e.content := by
  have hmem : e ∈ c.entriesOfContent e.content := (mem_entriesOfContent h).mpr ⟨⟨id, he⟩, rfl⟩
  obtain ⟨a, ha, hkey⟩ := exists_keyOf order (List.ne_nil_of_mem hmem)
  rw [← hkey]
  exact halike.key_eq order hmem ha

/-- Where the entries of a content rank alike, no content outranks one that outranks it. -/
theorem Outranks.asymm {c : Catalog} (h : c.Sound) {order : SortOrder} {a b : Nat}
    (ha : c.Alike a) (hb : c.Alike b) (hab : c.Outranks order a b) : ¬ c.Outranks order b a := by
  intro hba
  obtain ⟨e, he, f, hf, hef⟩ := hab
  obtain ⟨f', hf', e', he', hfe⟩ := hba
  have hcontent {id : Nat} {e : Entry} (he : e ∈ c.entriesOfContent id) : e.content = id :=
    ((mem_entriesOfContent h).mp he).2
  rw [SortOrder.ahead_iff, hcontent he, hcontent hf] at hef
  rw [SortOrder.ahead_iff, hcontent he', hcontent hf'] at hfe
  have hkeye := ha.key_eq order he he'
  have hkeyf := hb.key_eq order hf hf'
  omega

end Catalog

namespace Query

open SortOrder

variable {q : Query} {s : Settings} {c : Catalog} {l : Ledger} {order : SortOrder}

/-- The answer that the lists of these topics give. -/
def answerFrom (q : Query) (s : Settings) (source : ContentSource) (c : Catalog) (order : SortOrder)
    (topics : List Topic) : List Nat :=
  pick (q.admitsContent s source) q.limit []
    ((topics.flatMap c.table.hot).mergeSort order.precedes)

theorem run_eq (q : Query) (s : Settings) (source : ContentSource) (c : Catalog)
    (order : SortOrder) :
    q.run s source c order = q.prepare.validate.map fun _ =>
      q.prepare.answerFrom s source c order (q.prepare.topics c) := by
  change (q.prepare.validate >>= fun _ => pure _) = _
  cases q.prepare.validate <;> rfl

/-- Where a query may look: under its selected tags or languages, if there are any, or under every tag
there is. -/
def dimensions (q : Query) (c : Catalog) : List (List Topic) :=
  (if q.selectsTags then [q.selectTags.toList.map .tag] else []) ++
    (if q.selectsLanguages then [q.selectLanguages.toList.map .language] else []) ++
    [(c.totals.topicRows.map (·.topic)).filter (·.kind = .tag)]

theorem topics_mem_dimensions : q.topics c ∈ q.dimensions c := by
  unfold topics dimensions
  cases q.selectsTags <;> cases q.selectsLanguages <;> simp

/-- The ledger has the content, there is an entry of it, and its metadata now suits the query. -/
def Finds (q : Query) (s : Settings) (l : Ledger) (c : Catalog) (id : Nat) : Prop :=
  ∃ content, l.byId? id = some content ∧ c.entriesOfContent id ≠ [] ∧
    q.Suits (l.source.classify s content)

/-- All that a scan of the whole ledger finds, each once, in the order of a ranking. -/
structure Scans (q : Query) (s : Settings) (l : Ledger) (c : Catalog) (order : SortOrder)
    (ids : List Nat) : Prop where
  nodup : ids.Nodup
  mem_iff : ∀ id, id ∈ ids ↔ q.Finds s l c id
  ranked : ids.Pairwise (c.Outranks order)

theorem exists_entry_of_suits (hc : c.Sound) (hcurrent : c.Current s l)
    (hnames : ∀ name ∈ q.selectLanguages, name ≠ "") {content : Content}
    (hcontent : l.byId? content.id = some content) (hentries : c.entriesOfContent content.id ≠ [])
    (hsuits : q.Suits (l.source.classify s content)) {topics : List Topic}
    (htopics : topics ∈ q.dimensions c) :
    ∃ e, (∃ id, c.table.get? id = some e) ∧ e.content = content.id ∧ e.topic ∈ topics := by
  have hfiled (topic : Topic) (h : topic ∈ (l.source.classify s content).topics) :
      ∃ e, (∃ id, c.table.get? id = some e) ∧ e.content = content.id ∧ e.topic = topic := by
    have hmem : topic ∈ c.topicsOfContent content.id := by
      rw [hcurrent.topics content.id content hcontent hentries, Std.ExtTreeSet.mem_ofList]
      exact List.contains_iff_mem.mpr h
    obtain ⟨author, id, e, he, hec, -, het⟩ := (Catalog.mem_topicsOfContent hc).mp hmem
    exact ⟨e, ⟨id, he⟩, hec, het⟩
  simp only [dimensions, List.mem_append, List.mem_ite_nil_right, List.mem_singleton] at htopics
  rcases htopics with (⟨hselects, rfl⟩ | ⟨hselects, rfl⟩) | rfl
  · obtain ⟨tag, htag, hselected⟩ := hsuits.exists_tag hselects
    obtain ⟨e, he, hec, het⟩ := hfiled (.tag tag) (Classification.mem_topics.mpr (.inl ⟨tag, htag, rfl⟩))
    exact ⟨e, he, hec, List.mem_map.mpr ⟨tag, Std.ExtTreeSet.mem_toList.mpr hselected, het.symm⟩⟩
  · -- The language of the content is a selected one, which is not empty, so that there is an entry.
    have hlanguage := hsuits.language_mem hselects
    have hne := hnames _ hlanguage
    obtain ⟨e, he, hec, het⟩ := hfiled _ (Classification.mem_topics.mpr (.inr ⟨hne, rfl⟩))
    exact ⟨e, he, hec, List.mem_map.mpr ⟨_, Std.ExtTreeSet.mem_toList.mpr hlanguage, het.symm⟩⟩
  · -- Content without tags has the empty one, and so an entry that is no language.
    obtain ⟨tag, htag⟩ := l.source.exists_tag s content
    obtain ⟨e, ⟨id, he⟩, hec, het⟩ :=
      hfiled (.tag tag) (Classification.mem_topics.mpr (.inl ⟨tag, htag, rfl⟩))
    have hrow : e.topic ∈ c.totals.topicRows.map (·.topic) := hc.topic_mem_rows he
    have hkind : e.topic.kind = .tag := by rw [het]; rfl
    exact ⟨e, ⟨id, he⟩, hec, List.mem_filter.mpr ⟨hrow, by simpa using hkind⟩⟩

/-- The content of a ledger that is found, in the order of its ids. -/
def found (q : Query) (s : Settings) (l : Ledger) (c : Catalog) : List Nat :=
  (l.toList.filter fun content =>
    !(c.entriesOfContent content.id).isEmpty && q.admits (l.source.classify s content)).map (·.id)

theorem nodup_found (hl : l.Coherent) : (q.found s l c).Nodup :=
  hl.nodup_ids.sublist (List.filter_sublist.map _)

theorem mem_found (hl : l.Coherent) {id : Nat} : id ∈ q.found s l c ↔ q.Finds s l c id := by
  simp only [found, Finds, List.mem_map, List.mem_filter, Ledger.toList, mem_values, Bool.and_eq_true,
    Bool.not_eq_true', List.isEmpty_eq_false_iff, admits_iff_suits]
  constructor
  · rintro ⟨content, ⟨⟨i, hi⟩, hfound⟩, rfl⟩
    exact ⟨content, (hl.id_eq i content hi).symm ▸ hi, hfound⟩
  · rintro ⟨content, hstored, hfound⟩
    obtain rfl := hl.id_eq id content hstored
    exact ⟨content, ⟨⟨content.id, hstored⟩, hfound⟩, rfl⟩

theorem scans_iff_perm (hl : l.Coherent) {ids : List Nat} :
    q.Scans s l c order ids ↔ ids.Perm (q.found s l c) ∧ ids.Pairwise (c.Outranks order) := by
  constructor
  · intro h
    refine ⟨(List.perm_ext_iff_of_nodup h.nodup (nodup_found hl)).mpr fun id => ?_, h.ranked⟩
    rw [h.mem_iff, mem_found hl]
  · rintro ⟨hperm, hranked⟩
    exact ⟨hperm.nodup_iff.mpr (nodup_found hl), fun id => hperm.mem_iff.trans (mem_found hl), hranked⟩

/-- What is found stands in one order only, that of its keys. -/
theorem scans_iff (hc : c.Sound) (hl : l.Coherent) (hcurrent : c.Current s l) {ids : List Nat} :
    q.Scans s l c order ids ↔ ids = ranked (c.keyOf order) (q.found s l c) := by
  have hperm : (ranked (c.keyOf order) (q.found s l c)).Perm (q.found s l c) :=
    List.mergeSort_perm _ _
  have hranked : (ranked (c.keyOf order) (q.found s l c)).Pairwise (c.Outranks order) := by
    have hsorted := pairwise_mergeSort (fun id => (c.keyOf order id, id)) (q.found s l c)
    refine (hsorted.and (hperm.nodup_iff.mpr (nodup_found hl))).imp_of_mem ?_
    intro a b ha hb hab
    obtain ⟨hbefore, hne⟩ := hab
    have hentry (id : Nat) (hid : id ∈ ranked (c.keyOf order) (q.found s l c)) :
        ∃ e ∈ c.entriesOfContent id, e.content = id ∧ order.key e = c.keyOf order id := by
      obtain ⟨_, -, hentries, -⟩ := (mem_found hl).mp (hperm.subset hid)
      obtain ⟨e, he, hkey⟩ := Catalog.exists_keyOf order hentries
      exact ⟨e, he, ((Catalog.mem_entriesOfContent hc).mp he).2, hkey⟩
    obtain ⟨e, he, hea, hkeye⟩ := hentry a ha
    obtain ⟨f, hf, hfb, hkeyf⟩ := hentry b hb
    refine ⟨e, he, f, hf, ahead_of_before (by rwa [hea, hfb]) ?_⟩
    rwa [hea, hfb, hkeye, hkeyf]
  rw [scans_iff_perm hl]
  constructor
  · rintro ⟨hperm', hranked'⟩
    refine (hperm'.trans hperm.symm).eq_of_pairwise ?_ hranked' hranked
    intro a b ha hb hab hba
    have halike (id : Nat) (hid : id ∈ q.found s l c) : c.Alike id := by
      obtain ⟨content, hstored, -⟩ := (mem_found hl).mp hid
      exact hcurrent.alike id content hstored
    exact absurd hba (hab.asymm hc (halike a (hperm'.subset ha)) (halike b (hperm.subset hb)))
  · rintro rfl
    exact ⟨hperm, hranked⟩

theorem answerFrom_eq_ranked (hc : c.Sound) (hl : l.Coherent) (hcurrent : c.Current s l)
    (hnan : ∀ id e, c.table.get? id = some e → e.hot.isNaN = false)
    (hnames : ∀ name ∈ q.selectLanguages, name ≠ "") {topics : List Topic}
    (htopics : topics ∈ q.dimensions c) :
    q.answerFrom s l.source c order topics =
      (ranked (c.keyOf order) (q.found s l c)).take q.limit := by
  have hcandidate (e : Entry) : e ∈ topics.flatMap c.table.hot ↔
      (∃ id, c.table.get? id = some e) ∧ e.topic ∈ topics := by
    rw [hc.table.mem_flatMap_hot]
    refine and_congr_right fun hh => and_iff_left ?_
    obtain ⟨id, he⟩ := hh
    exact Score.rank_le_infinity (hnan id e he)
  refine pick_mergeSort (c.keyOf order) ?_ ?_ ?_ q.limit
  · intro e he hadmitted
    obtain ⟨⟨id, he⟩, -⟩ := (hcandidate e).mp he
    obtain ⟨content, hstored, -⟩ := (Option.any_eq_true _ _).mp hadmitted
    exact Catalog.key_eq_keyOf hc order he (hcurrent.alike e.content content hstored)
  · exact nodup_found hl
  · intro id
    simp only [mem_found hl, hcandidate]
    constructor
    · intro hh
      obtain ⟨content, hstored, hentries, hsuits⟩ := hh
      obtain rfl := hl.id_eq id content hstored
      obtain ⟨e, he, hec, het⟩ :=
        exists_entry_of_suits hc hcurrent hnames hstored hentries hsuits htopics
      exact ⟨admitsContent_iff.mpr ⟨content, hstored, hsuits⟩, e, ⟨he, het⟩, hec⟩
    · intro hh
      obtain ⟨hadmitted, e, ⟨he, -⟩, hec⟩ := hh
      obtain ⟨content, hstored, hsuits⟩ := admitsContent_iff.mp hadmitted
      have hmem : e ∈ c.entriesOfContent id := (Catalog.mem_entriesOfContent hc).mpr ⟨he, hec⟩
      exact ⟨content, hstored, List.ne_nil_of_mem hmem, hsuits⟩

end Query

theorem Course.reachable {n : Node} {F : Filed} (h : Course n F) :
    Catalog.Reachable n.catalog := by
  induction h with
  | start => exact .refl
  | edit _ he ih => exact he.catalog_eq ▸ ih
  | @move s n n' _ m returned _ hm ih =>
    -- Calls of the ledger leave the catalog alone, and an operation is a step of it.
    have hledger {α : Type} {call : Update Ledger α} :
        Update.Yields (Node.onLedger call) n (fun _ t => Catalog.Reachable t.catalog)
          fun _ t => Catalog.Reachable t.catalog := by
      rw [Node.onLedger, Update.yields_within]
      exact .of_forall (fun _ _ => ih) fun _ _ => ih
    refine hm.of_yields (P := fun _ t => Catalog.Reachable t.catalog) ?_
    cases m with
    | upsert c => simpa only [Node.run, Update.yields_bind, Update.yields_pure] using hledger
    | remove a => simpa only [Node.run, Update.yields_bind, Update.yields_pure] using hledger
    | applyVote a rshares votes => exact hledger
    | setCashout a cashout => exact hledger
    | closePayout a => exact hledger
    | apply op =>
      simp only [Node.run, Node.onCatalog, Update.yields_bind, Update.yields_pure,
        Update.yields_get, Update.yields_within]
      exact ih.yields_apply s n.ledger.source op

theorem History.reachable {s : Settings} {n : Node} {F : Filed} (h : History s n F) :
    Catalog.Reachable n.catalog :=
  h.course.reachable

namespace Query

variable {s : Settings} {n : Node} {F : Filed} {c : Catalog}

/-- A query fails as its validation does, and otherwise answers with the first that a scan of the
ledger finds, whichever dimension supplies the candidates: for any catalog that upkeep leads to, beside
any ledger that its entries are current with. -/
theorem run_eq_scan (hc : Catalog.Reachable c) (hn : Course n F) (hcurrent : c.Current s n.ledger)
    (hnan : ∀ id e, c.table.get? id = some e → e.hot.isNaN = false) (q : Query)
    (order : SortOrder) :
    (∀ f, q.run s n.ledger.source c order = .error f ↔ q.prepare.validate = .error f) ∧
    ∃ all : List Nat, (∀ ids, q.prepare.Scans s n.ledger c order ids ↔ ids = all) ∧
      (q.prepare.validate = .ok () →
        q.run s n.ledger.source c order = .ok (all.take q.limit)) ∧
      ∀ topics ∈ q.prepare.dimensions c,
        q.prepare.answerFrom s n.ledger.source c order topics = all.take q.limit := by
  have hl := hn.holds.ledger
  have hanswer (topics : List Topic) (htopics : topics ∈ q.prepare.dimensions c) :
      q.prepare.answerFrom s n.ledger.source c order topics =
        (ranked (c.keyOf order) (q.prepare.found s n.ledger c)).take q.limit :=
    answerFrom_eq_ranked hc.sound hl hcurrent hnan (fun _ => prepare_selects_language) htopics
  have hrun := run_eq q s n.ledger.source c order
  rw [hanswer _ topics_mem_dimensions] at hrun
  refine ⟨fun f => ?_, _, fun ids => scans_iff hc.sound hl hcurrent, fun hvalid => ?_, hanswer⟩
  · rw [hrun]
    cases q.prepare.validate <;> simp [Except.map]
  · rw [hrun, hvalid]
    rfl

end Query

/-! ## Four posts -/

/-- A post under the tag of its category. -/
def newsPost (author permlink : String) (seconds : Int) : Content :=
  { (Content.post ⟨author, permlink⟩ ⟨seconds, 0⟩).inCategory "news" with cashoutTime := some .last }

def postsWritten : Node :=
  Node.nexts {} [
    .upsert (newsPost "alice" "morning" 10000),
    .upsert (newsPost "bob" "noon" 20000),
    .upsert (newsPost "carol" "evening" 30000),
    .upsert (newsPost "dave" "night" 40000)] {}

/-- File a post while its age counts in these units. -/
def Node.file (author permlink : String) (hot trending : Int64) (n : Node) : Node :=
  n.next { hot := ⟨1, hot⟩, trending := ⟨1, trending⟩ } (.apply (.comment ⟨author, permlink⟩ "" "news"))

/-- The posts have the hot scores 2, 1, 3 and 4 and the trending scores 1, 4, 3 and 5. -/
def postsFiled : Node :=
  (((postsWritten.file "alice" "morning" 5000 10000).file "bob" "noon" 20000 5000).file
    "carol" "evening" 10000 10000).file "dave" "night" 10000 8000

theorem Course.exists_file {n : Node} {author permlink : String} {hot trending : Int64}
    (h : ∃ F, Course n F)
    (hreturns : n.returns { hot := ⟨1, hot⟩, trending := ⟨1, trending⟩ }
      (.apply (.comment ⟨author, permlink⟩ "" "news")) = true) :
    ∃ F, Course (n.file author permlink hot trending) F := by
  obtain ⟨F, hF⟩ := h
  exact ⟨_, hF.move (Node.moves_next hreturns)⟩

theorem exists_course_postsFiled : ∃ F, Course postsFiled F := by
  obtain ⟨F, hwritten⟩ : ∃ F, History {} postsWritten F :=
    History.exists_nexts ⟨_, .start⟩ (by decide +kernel)
  refine Course.exists_file (Course.exists_file (Course.exists_file (Course.exists_file
    ⟨F, hwritten.course⟩ ?_) ?_) ?_) ?_
  all_goals decide +kernel

namespace Query

theorem current_postsFiled : postsFiled.catalog.Current {} postsFiled.ledger := by
  obtain ⟨F, hF⟩ := exists_course_postsFiled
  have htopics : ∀ content ∈ postsFiled.ledger.toList,
      (postsFiled.catalog.topicsOfContent content.id).toList =
        (Std.ExtTreeSet.ofList (postsFiled.ledger.source.classify {} content).topics).toList := by
    decide +kernel
  refine ⟨fun id content hcontent _ => ?_, fun id _ _ => ?_⟩
  · have hid := hF.holds.ledger.id_eq id content hcontent
    have hlist := htopics content (mem_values.mpr ⟨id, hcontent⟩)
    rw [hid] at hlist
    apply Std.ExtTreeSet.ext_mem
    intro topic
    rw [← Std.ExtTreeSet.mem_toList, hlist, Std.ExtTreeSet.mem_toList]
  · have halike : ∀ a ∈ postsFiled.catalog.table.toList, ∀ b ∈ postsFiled.catalog.table.toList,
        a.content = b.content → a.hot = b.hot ∧ a.trending = b.trending ∧ a.created = b.created := by
      decide +kernel
    exact Catalog.alike_of_toList hF.holds.catalog halike id

/-- Each order has the posts in another sequence, and none in that of their ids. -/
theorem run_eq_scan_postsFiled :
    let q : Query := { selectTags := .ofList [" News "], limit := 3 }
    let answer : SortOrder → List Nat
      | .hot => [4, 3, 1]
      | .trending => [4, 2, 3]
      | .created => [4, 3, 2]
    ∃ F, Course postsFiled F ∧ Catalog.Reachable postsFiled.catalog ∧
      postsFiled.catalog.Current {} postsFiled.ledger ∧
      (∀ id e, postsFiled.catalog.table.get? id = some e → e.hot.isNaN = false) ∧
      ∀ order, q.run {} postsFiled.ledger.source postsFiled.catalog order = .ok (answer order) := by
  intro q answer
  obtain ⟨F, hF⟩ := exists_course_postsFiled
  have hnan : ∀ e ∈ postsFiled.catalog.table.toList, e.hot.isNaN = false := by decide +kernel
  have hnumbers (id : Nat) (e : Entry) (he : postsFiled.catalog.table.get? id = some e) :
      e.hot.isNaN = false := hnan e (EntryTable.mem_toList.mpr ⟨id, he⟩)
  have hvalid : q.prepare.validate = .ok () := by decide +kernel
  refine ⟨F, hF, hF.reachable, current_postsFiled, hnumbers, fun order => ?_⟩
  obtain ⟨-, all, hscans, hrun, -⟩ := run_eq_scan hF.reachable hF current_postsFiled hnumbers q order
  have hall (posts : List Nat)
      (hposts : posts.Perm (q.prepare.found {} postsFiled.ledger postsFiled.catalog) ∧
        posts.Pairwise (postsFiled.catalog.Outranks order)) : posts = all :=
    (hscans posts).mp ((scans_iff_perm hF.holds.ledger).mpr hposts)
  rw [hrun hvalid]
  cases order with
  | hot =>
    rw [← hall [4, 3, 1, 2] (by decide +kernel)]
    rfl
  | trending =>
    rw [← hall [4, 2, 3, 1] (by decide +kernel)]
    rfl
  | created =>
    rw [← hall [4, 3, 2, 1] (by decide +kernel)]
    rfl

end Query

end TagCatalog
