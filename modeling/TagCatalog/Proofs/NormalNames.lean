import TagCatalog.Proofs.Discovery

/-! Names in normal form. Normalizing leaves them as they are, a catalog has no others but the empty
tag, and a query may spell them in any way. -/

namespace TagCatalog

theorem nameOf_nameOf (text : String) : nameOf (nameOf text) = nameOf text := by
  simp only [nameOf, String.toList_ofList, Text.trim_lower_trim, Text.lower_lower]

theorem normalizeName?_eq_some_iff {s name : String} :
    normalizeName? s = some name ↔ name ≠ "" ∧ nameOf s = name := by
  rw [normalizeName?_eq]
  by_cases hempty : nameOf s = ""
  · rw [if_pos hempty, hempty]
    exact iff_of_false nofun fun hh => hh.1 hh.2.symm
  · rw [if_neg hempty, Option.some.injEq]
    exact ⟨fun h => ⟨h ▸ hempty, h⟩, fun hh => hh.2⟩

theorem normalizeName?_normal {s name : String} (h : normalizeName? s = some name) :
    normalizeName? name = some name := by
  obtain ⟨hne, rfl⟩ := normalizeName?_eq_some_iff.mp h
  exact normalizeName?_eq_some_iff.mpr ⟨hne, nameOf_nameOf s⟩

/-! ## Names that are filed -/

/-- The topic has a name in normal form, or is the tag of content without tags. -/
def Topic.Normal (t : Topic) : Prop := normalizeName? t.name = some t.name ∨ t = .tag ""

theorem normal_nameOf {text : String} (h : nameOf text ≠ "") :
    normalizeName? (nameOf text) = some (nameOf text) :=
  normalizeName?_eq_some_iff.mpr ⟨h, nameOf_nameOf text⟩

namespace Classification

variable {s : Settings} {category metadata name : String} {topic : Topic}

theorem normal_of_mem_chosen {texts : List String} (h : name ∈ chosen s category texts) :
    normalizeName? name = some name := by
  have hne : name ≠ "" := fun hempty => not_mem_chosen s category texts (hempty ▸ h)
  rcases List.mem_append.mp h with hmem | hmem
  · have hnames := List.mem_eraseDups.mp (List.mem_of_mem_take hmem)
    obtain ⟨text, -, rfl⟩ := List.mem_map.mp (List.mem_filter.mp hnames).1
    exact normal_nameOf hne
  · split at hmem
    · obtain rfl := List.mem_singleton.mp hmem
      exact normal_nameOf hne
    · cases hmem

theorem normal_language (hne : (extract s category metadata).language ≠ "") :
    normalizeName? (extract s category metadata).language =
      some (extract s category metadata).language := by
  obtain ⟨hdeclared, hnone⟩ := language_extract s category metadata
  by_cases hlanguage : ∃ text, Json.Declares metadata "language" (.str text)
  · obtain ⟨text, htext⟩ := hlanguage
    rw [hdeclared text htext] at hne ⊢
    exact normal_nameOf hne
  · exact absurd (hnone (not_exists.mp hlanguage)) hne

theorem normal_of_mem_topics (h : topic ∈ (extract s category metadata).topics) : topic.Normal := by
  rcases mem_topics.mp h with ⟨tag, htag, rfl⟩ | ⟨hne, rfl⟩
  · rcases (mem_tags_extract (declared_iff.mpr rfl)).mp htag with hchosen | ⟨-, rfl⟩
    · exact .inl (normal_of_mem_chosen hchosen)
    · exact .inr rfl
  · exact .inl (normal_language hne)

end Classification

namespace Catalog

def Normal (c : Catalog) : Prop := ∀ id e, c.table.get? id = some e → e.topic.Normal

variable {s : Settings} {c d : Catalog}

theorem Thinned.normal {keep : Entry → Bool} {path : List Content} (h : Thinned s keep path c d)
    (hc : c.Normal) : d.Normal := by
  intro id e he
  rw [h.2, Option.map_eq_some_iff] at he
  obtain ⟨a, ha, rfl⟩ := he
  obtain ⟨ha, -⟩ := Option.filter_eq_some_iff.mp ha
  rw [(refreshedBy_place path a).2.2]
  exact hc id a ha

theorem Reclassified.normal {content : Content} {parent : Option Nat} {topics : List Topic}
    (h : Reclassified s content parent topics c d) (hc : c.Normal)
    (htopics : ∀ topic ∈ topics, topic.Normal) : d.Normal := by
  intro id e he
  cases hold : c.table.get? id with
  | none => exact htopics e.topic (h.new id e hold he).1
  | some old =>
    rw [h.old id old hold] at he
    split_ifs at he
    · obtain rfl := Option.some.inj he
      exact hc id old hold
    · obtain rfl := Option.some.inj he
      exact hc id old hold

theorem Altered.normal (h : c.Altered d) (hc : c.Normal) : d.Normal := by
  cases h with
  | kept h => exact h ▸ hc
  | reclassified h => exact h.normal hc fun _ => Classification.normal_of_mem_topics
  | thinned h => exact h.normal hc

theorem Reachable.normal (h : Reachable c) : c.Normal := by
  induction h with
  | refl => simp [Normal, Catalog.empty, EntryTable.empty, EntryTable.get?]
  | tail hc hstep ih => exact (hstep.sound_altered (Reachable.sound hc)).2.normal ih

end Catalog

/-! ## Names that are asked for -/

/-- Two sets that may differ in which of two spellings of a name they have. -/
structure Names.Respelled (s name : String) (names names' : Names) : Prop where
  others : ∀ other, other ≠ s → other ≠ name → (other ∈ names ↔ other ∈ names')
  either : s ∈ names ∨ name ∈ names ↔ s ∈ names' ∨ name ∈ names'

namespace Names.Respelled

variable {s name : String} {names names' : Names}

theorem refl (s name : String) (names : Names) : Respelled s name names names :=
  ⟨fun _ _ _ => .rfl, .rfl⟩

theorem symm (h : Respelled s name names names') : Respelled s name names' names :=
  ⟨fun other hs hname => (h.others other hs hname).symm, h.either.symm⟩

theorem insert (s name : String) (names : Names) :
    Respelled s name (names.insert s) (names.insert name) where
  others other hs hname := by
    simp only [Std.ExtTreeSet.mem_insert, Std.compare_eq_iff_eq, hs.symm, hname.symm, false_or]
  either := iff_of_true (.inl (by simp)) (.inr (by simp))

theorem mem_normalizeNames (h : Respelled s name names names')
    (hs : normalizeName? s = some name) {other : String}
    (hother : other ∈ Query.normalizeNames names) : other ∈ Query.normalizeNames names' := by
  obtain ⟨given, hgiven, hnormal⟩ := Query.mem_normalizeNames.mp hother
  have hname := normalizeName?_normal hs
  by_cases hspelled : given = s ∨ given = name
  · have hsame : some other = some name := by
      rcases hspelled with rfl | rfl
      · exact hnormal.symm.trans hs
      · exact hnormal.symm.trans hname
    obtain rfl := Option.some.inj hsame
    have heither : s ∈ names ∨ other ∈ names := by
      rcases hspelled with rfl | rfl
      · exact .inl hgiven
      · exact .inr hgiven
    rcases h.either.mp heither with hmem | hmem
    · exact Query.mem_normalizeNames.mpr ⟨s, hmem, hs⟩
    · exact Query.mem_normalizeNames.mpr ⟨other, hmem, hname⟩
  · rw [not_or] at hspelled
    have hmem := (h.others given hspelled.1 hspelled.2).mp hgiven
    exact Query.mem_normalizeNames.mpr ⟨given, hmem, hnormal⟩

theorem normalizeNames_eq (h : Respelled s name names names') (hs : normalizeName? s = some name) :
    Query.normalizeNames names = Query.normalizeNames names' := by
  apply Std.ExtTreeSet.ext_mem
  exact fun _ => ⟨h.mem_normalizeNames hs, h.symm.mem_normalizeNames hs⟩

end Names.Respelled

namespace Query

theorem normalizeNames_normalizeNames (names : Names) :
    normalizeNames (normalizeNames names) = normalizeNames names := by
  apply Std.ExtTreeSet.ext_mem
  intro name
  rw [mem_normalizeNames]
  constructor
  · intro hh
    obtain ⟨given, hgiven, hname⟩ := hh
    obtain ⟨_, -, hnormal⟩ := mem_normalizeNames.mp hgiven
    obtain rfl := Option.some.inj ((normalizeName?_normal hnormal).symm.trans hname)
    exact hgiven
  · intro hmem
    obtain ⟨_, -, hnormal⟩ := mem_normalizeNames.mp hmem
    exact ⟨name, hmem, normalizeName?_normal hnormal⟩

theorem prepare_prepare (q : Query) : q.prepare.prepare = q.prepare := by
  simp only [prepare, normalizeNames_normalizeNames]

/-- Two queries that may differ, in each of their sets, in which of two spellings of a name they
have. -/
structure Respelled (s name : String) (q q' : Query) : Prop where
  selectTags : Names.Respelled s name q.selectTags q'.selectTags
  filterTags : Names.Respelled s name q.filterTags q'.filterTags
  selectLanguages : Names.Respelled s name q.selectLanguages q'.selectLanguages
  filterLanguages : Names.Respelled s name q.filterLanguages q'.filterLanguages
  limit : q.limit = q'.limit

theorem Respelled.prepare_eq {s name : String} {q q' : Query} (h : Respelled s name q q')
    (hs : normalizeName? s = some name) : q.prepare = q'.prepare := by
  simp only [prepare, h.selectTags.normalizeNames_eq hs, h.filterTags.normalizeNames_eq hs,
    h.selectLanguages.normalizeNames_eq hs, h.filterLanguages.normalizeNames_eq hs, h.limit]

/-- Normal forms stay as they are, entries are filed under nothing else, and a query asks for nothing
else, however it spells the names that it was given. -/
theorem names_meet {c : Catalog} (hc : Catalog.Reachable c) :
    (∀ s name, normalizeName? s = some name → normalizeName? name = some name) ∧
    (∀ id e, c.table.get? id = some e →
      normalizeName? e.topic.name = some e.topic.name ∨ e.topic = .tag "") ∧
    (∀ names name, name ∈ normalizeNames names ↔ ∃ given ∈ names, normalizeName? given = some name) ∧
    (∀ q : Query, q.prepare.prepare = q.prepare) ∧
    ∀ id e, c.table.get? id = some e → ∀ s, normalizeName? s = some e.topic.name →
      ∀ q q' : Query, Respelled s e.topic.name q q' →
        q.prepare.validate = q'.prepare.validate ∧
          ∀ settings source order,
            q.run settings source c order = q'.run settings source c order := by
  refine ⟨fun _ _ => normalizeName?_normal, hc.normal, fun _ _ => mem_normalizeNames,
    prepare_prepare, ?_⟩
  intro id e _ s hs q q' hrespelled
  have hprepare := hrespelled.prepare_eq hs
  refine ⟨by rw [hprepare], fun settings source order => ?_⟩
  rw [run_eq, run_eq, hprepare]

/-- Content filed under `news` is found under a spelling with capitals and an ideographic space, and a
query that selects the one and filters the other is refused. -/
theorem names_meet_news :
    let select : Names → Query := fun selectTags => { selectTags }
    let refuse : Names → Query := fun filterTags => { selectTags := .ofList ["news"], filterTags }
    Catalog.Reachable replyFiled.catalog ∧
      (∃ e, replyFiled.catalog.table.get? 1 = some e ∧ e.topic = .tag "news") ∧
      normalizeName? "\u3000NewS" = some "news" ∧
      (∀ order, (select (.insert ∅ "\u3000NewS")).run {} replyFiled.ledger.source replyFiled.catalog
          order = (select (.insert ∅ "news")).run {} replyFiled.ledger.source replyFiled.catalog order) ∧
      (refuse (.insert ∅ "news")).prepare.validate = .error (.overlap .tags "news") ∧
      (refuse (.insert ∅ "\u3000NewS")).prepare.validate = .error (.overlap .tags "news") := by
  intro select refuse
  obtain ⟨F, hF⟩ := exists_history_replyFiled
  have hentry : ((replyFiled.catalog.table.get? 1).map (·.topic)) = some (.tag "news") := by
    decide +kernel
  obtain ⟨e, he, htopic⟩ := Option.map_eq_some_iff.mp hentry
  have hname : e.topic.name = "news" := by rw [htopic]; rfl
  have hspelled : normalizeName? "\u3000NewS" = some "news" := by decide +kernel
  have hrefused : (refuse (.insert ∅ "news")).prepare.validate = .error (.overlap .tags "news") := by
    decide +kernel
  have hrefl (names : Names) := Names.Respelled.refl "\u3000NewS" "news" names
  have hinsert := Names.Respelled.insert "\u3000NewS" "news" ∅
  obtain ⟨-, -, -, -, hmeet⟩ := names_meet hF.reachable
  have hmeet := hmeet 1 e he "\u3000NewS"
  rw [hname] at hmeet
  obtain ⟨-, hruns⟩ := hmeet hspelled (select (.insert ∅ "\u3000NewS")) (select (.insert ∅ "news"))
    ⟨hinsert, hrefl _, hrefl _, hrefl _, rfl⟩
  obtain ⟨hvalid, -⟩ := hmeet hspelled (refuse (.insert ∅ "\u3000NewS")) (refuse (.insert ∅ "news"))
    ⟨hrefl _, hinsert, hrefl _, hrefl _, rfl⟩
  exact ⟨hF.reachable, ⟨e, he, htopic⟩, hspelled, fun order => hruns {} _ order, hrefused,
    hvalid.trans hrefused⟩

end Query

end TagCatalog
