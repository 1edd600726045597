import TagCatalog.Proofs.Audit
import TagCatalog.Proofs.Reachability

/-! The list of an audit names every disagreement between totals and entries once, and nothing else,
whatever state the catalog is in. -/

namespace TagCatalog

/-- What is told of things with different keys is different. -/
theorem nodup_filterMap_of_keys {α β κ : Type} {l : List α} {f : α → Option β} {key : α → κ}
    (hkeys : (l.map key).Nodup)
    (hf : ∀ a a' b, f a = some b → f a' = some b → key a = key a') : (l.filterMap f).Nodup := by
  rw [List.Nodup, List.pairwise_filterMap]
  refine (List.pairwise_map.mp hkeys).imp ?_
  rintro a a' hne b hb b' hb' rfl
  exact hne (hf a a' b hb hb')

theorem nodup_append_of_rank {α : Type} {l l' : List α} {rank : α → Nat} {n : Nat}
    (h : l.Nodup ∧ ∀ a ∈ l, rank a < n) (h' : l'.Nodup ∧ ∀ a ∈ l', rank a = n) :
    (l ++ l').Nodup ∧ ∀ a ∈ l ++ l', rank a < n + 1 := by
  obtain ⟨hnodup, hrank⟩ := h
  obtain ⟨hnodup', hrank'⟩ := h'
  refine ⟨List.nodup_append.mpr ⟨hnodup, hnodup', ?_⟩, ?_⟩
  · rintro a ha b hb rfl
    have hlt := hrank a ha
    have heq := hrank' a hb
    omega
  · intro a ha
    rcases List.mem_append.mp ha with ha | ha
    · have hlt := hrank a ha
      omega
    · have heq := hrank' a ha
      omega

theorem nodup_map_fst_toList {κ β : Type} [Ord κ] [Std.TransOrd κ] (m : Std.ExtTreeMap κ β) :
    (m.toList.map Prod.fst).Nodup := by
  refine List.pairwise_map.mpr (m.distinct_keys_toList.imp ?_)
  intro a b hab hsame
  exact hab (hsame ▸ Std.ReflCmp.compare_self)

namespace Catalog

variable {c : Catalog}

theorem Keyed.nodup_topicRows (h : c.Keyed) : (c.totals.topicRows.map (·.topic)).Nodup := by
  refine nodup_map_values fun topic topic' row row' hrow hrow' hsame => ?_
  have htopic : row.topic = topic := h.topics topic row hrow
  have htopic' : row'.topic = topic' := h.topics topic' row' hrow'
  exact htopic.symm.trans (hsame.trans htopic')

theorem Keyed.nodup_authorRows (h : c.Keyed) :
    (c.totals.authorRows.map fun row => Authorship.mk row.author row.topic).Nodup := by
  refine nodup_map_values fun key key' row row' hrow hrow' hsame => ?_
  obtain ⟨hauthor, htopic⟩ := h.authors key.author key.topic row hrow
  obtain ⟨hauthor', htopic'⟩ := h.authors key'.author key'.topic row' hrow'
  rw [hauthor, htopic, hauthor', htopic'] at hsame
  exact hsame

/-- Which loop of an audit tells of a disagreement. -/
def loopOf (c : Catalog) : Drift → Nat
  | .counts .. | .missing _ => 0
  | .orphan _ => 1
  | .author author topic _ _ => if (c.totals.author? author topic).isSome then 2 else 3
  | .language _ registered => if registered then 4 else 5

theorem topicDrifts_once (c : Catalog) (m : TopicTallies) :
    (m.toList.filterMap fun p => topicDrift c.totals p.1 p.2).Nodup ∧
      ∀ d ∈ m.toList.filterMap fun p => topicDrift c.totals p.1 p.2, c.loopOf d < 1 := by
  constructor
  · refine nodup_filterMap_of_keys (nodup_map_fst_toList m) fun p p' d hd hd' => ?_
    rcases topicDrift_eq_some_iff.mp hd with ⟨-, rfl⟩ | ⟨row, -, -, rfl⟩
    · rcases topicDrift_eq_some_iff.mp hd' with ⟨-, hsame⟩ | ⟨row', -, -, hsame⟩
      · exact (Drift.missing.inj hsame).symm
      · cases hsame
    · rcases topicDrift_eq_some_iff.mp hd' with ⟨-, hsame⟩ | ⟨row', -, -, hsame⟩
      · cases hsame
      · exact (Drift.counts.inj hsame).1.symm
  · intro d hd
    obtain ⟨p, -, hd⟩ := List.mem_filterMap.mp hd
    rcases topicDrift_eq_some_iff.mp hd with ⟨-, rfl⟩ | ⟨row, -, -, rfl⟩
    · exact Nat.one_pos
    · exact Nat.one_pos

theorem Keyed.orphanDrifts_once (h : c.Keyed) (m : TopicTallies) :
    (c.totals.topicRows.filterMap (orphanDrift m)).Nodup ∧
      ∀ d ∈ c.totals.topicRows.filterMap (orphanDrift m), c.loopOf d = 1 := by
  constructor
  · refine nodup_filterMap_of_keys h.nodup_topicRows fun row row' d hd hd' => ?_
    obtain ⟨-, rfl⟩ := orphanDrift_eq_some_iff.mp hd
    obtain ⟨-, hsame⟩ := orphanDrift_eq_some_iff.mp hd'
    exact (Drift.orphan.inj hsame).symm
  · intro d hd
    obtain ⟨row, -, hd⟩ := List.mem_filterMap.mp hd
    obtain ⟨-, rfl⟩ := orphanDrift_eq_some_iff.mp hd
    rfl

theorem Keyed.authorDrifts_once (h : c.Keyed) (m : AuthorTallies) :
    (c.totals.authorRows.filterMap (authorDrift m)).Nodup ∧
      ∀ d ∈ c.totals.authorRows.filterMap (authorDrift m), c.loopOf d = 2 := by
  constructor
  · refine nodup_filterMap_of_keys h.nodup_authorRows fun row row' d hd hd' => ?_
    obtain ⟨n, -, -, rfl⟩ := authorDrift_eq_some_iff.mp hd
    obtain ⟨n', -, -, hsame⟩ := authorDrift_eq_some_iff.mp hd'
    obtain ⟨hauthor, htopic, -, -⟩ := Drift.author.inj hsame
    rw [hauthor, htopic]
  · intro d hd
    obtain ⟨row, hrow, hd⟩ := List.mem_filterMap.mp hd
    obtain ⟨n, -, -, rfl⟩ := authorDrift_eq_some_iff.mp hd
    simp [loopOf, h.mem_authorRows.mp hrow]

theorem Keyed.unrecordedDrifts_once (h : c.Keyed) (m : AuthorTallies) :
    (m.toList.filterMap fun p => unrecordedDrift c.totals.authorRows p.1 p.2).Nodup ∧
      ∀ d ∈ m.toList.filterMap fun p => unrecordedDrift c.totals.authorRows p.1 p.2,
        c.loopOf d = 3 := by
  constructor
  · refine nodup_filterMap_of_keys (nodup_map_fst_toList m) fun p p' d hd hd' => ?_
    obtain ⟨-, rfl⟩ := unrecordedDrift_eq_some_iff.mp hd
    obtain ⟨-, hsame⟩ := unrecordedDrift_eq_some_iff.mp hd'
    obtain ⟨hauthor, htopic, -, -⟩ := Drift.author.inj hsame
    change Authorship.mk p.1.author p.1.topic = ⟨p'.1.author, p'.1.topic⟩
    rw [hauthor, htopic]
  · intro d hd
    obtain ⟨p, -, hd⟩ := List.mem_filterMap.mp hd
    obtain ⟨hnone, rfl⟩ := unrecordedDrift_eq_some_iff.mp hd
    simp [loopOf, h.author?_eq_none_of_not_mem hnone]

theorem registeredDrifts_once (c : Catalog) :
    (c.languages.filterMap (registeredDrift c.totals)).Nodup ∧
      ∀ d ∈ c.languages.filterMap (registeredDrift c.totals), c.loopOf d = 4 := by
  constructor
  · have hnames : (c.languages.map id).Nodup := by
      rw [List.map_id]
      refine c.totals.languages.distinct_toList.imp ?_
      rintro a b hab rfl
      exact hab Std.ReflCmp.compare_self
    refine nodup_filterMap_of_keys hnames fun name name' d hd hd' => ?_
    obtain ⟨-, rfl⟩ := registeredDrift_eq_some_iff.mp hd
    obtain ⟨-, hsame⟩ := registeredDrift_eq_some_iff.mp hd'
    exact (Drift.language.inj hsame).1.symm
  · intro d hd
    obtain ⟨name, -, hd⟩ := List.mem_filterMap.mp hd
    obtain ⟨-, rfl⟩ := registeredDrift_eq_some_iff.mp hd
    rfl

theorem Keyed.unregisteredDrifts_once (h : c.Keyed) :
    (c.totals.topicRows.filterMap (unregisteredDrift c.totals)).Nodup ∧
      ∀ d ∈ c.totals.topicRows.filterMap (unregisteredDrift c.totals), c.loopOf d = 5 := by
  constructor
  · refine nodup_filterMap_of_keys h.nodup_topicRows fun row row' d hd hd' => ?_
    obtain ⟨hkind, -, rfl⟩ := unregisteredDrift_eq_some_iff.mp hd
    obtain ⟨hkind', -, hsame⟩ := unregisteredDrift_eq_some_iff.mp hd'
    change Topic.mk row.topic.kind row.topic.name = ⟨row'.topic.kind, row'.topic.name⟩
    rw [hkind, hkind', (Drift.language.inj hsame).1]
  · intro d hd
    obtain ⟨row, -, hd⟩ := List.mem_filterMap.mp hd
    obtain ⟨-, -, rfl⟩ := unregisteredDrift_eq_some_iff.mp hd
    rfl

theorem Keyed.nodup_drift (h : c.Keyed) : c.audit.drift.Nodup := by
  let topics := c.table.toList.foldl tallyTopic ∅
  let authors := c.table.toList.foldl tallyAuthor ∅
  have horphans := nodup_append_of_rank (topicDrifts_once c topics) (h.orphanDrifts_once topics)
  have hauthors := nodup_append_of_rank horphans (h.authorDrifts_once authors)
  have hunrecorded := nodup_append_of_rank hauthors (h.unrecordedDrifts_once authors)
  have hregistered := nodup_append_of_rank hunrecorded (registeredDrifts_once c)
  exact (nodup_append_of_rank hregistered h.unregisteredDrifts_once).1

/-- An audit lists just what there is to report, each once. -/
theorem Keyed.audit_lists (h : c.Keyed) :
    c.audit.drift.Nodup ∧ ∀ d, d ∈ c.audit.drift ↔ c.Drifts d :=
  ⟨h.nodup_drift, fun _ => h.mem_drift_iff⟩

/-- One entry, and of its totals nothing as it should be. -/
def driftedCatalog : Catalog :=
  { loneCatalog with
    totals :=
      let totals := (Totals.empty.putTopic (.tag "") { topic := .tag "", topPosts := 2 }).putTopic
        (.language "en") { topic := .language "en", comments := 1 }
      (totals.putAuthor ⟨"bob", .tag ""⟩ { author := "bob", topic := .tag "", posts := 1 }
        ).registerLanguage "de" }

theorem keyed_driftedCatalog : driftedCatalog.Keyed := by
  constructor
  · intro topic row hrow
    change ((Totals.empty.putTopic _ _).putTopic _ _).topic? topic = some row at hrow
    simp only [Totals.topic?_putTopic] at hrow
    split at hrow
    · rename_i htopic
      rw [← Option.some.inj hrow, ← htopic]
    · split at hrow
      · rename_i htopic
        rw [← Option.some.inj hrow, ← htopic]
      · simp [Totals.topic?, Totals.empty] at hrow
  · intro author topic row hrow
    change ((∅ : Std.ExtTreeMap Authorship AuthorTotals).insert _ _)[Authorship.mk author topic]? =
      some row at hrow
    rw [getElem?_insert_eq] at hrow
    split at hrow
    · rename_i hkey
      obtain ⟨hauthor, htopic⟩ := Authorship.mk.inj hkey
      rw [← Option.some.inj hrow, ← hauthor, ← htopic]
      exact ⟨rfl, rfl⟩
    · simp at hrow

theorem Keyed.audit_lists_drifted :
    driftedCatalog.Keyed ∧
      driftedCatalog.audit.drift = [.counts (.tag "") 1 2 0 0, .orphan (.language "en"),
        .author "bob" (.tag "") 0 1, .author "alice" (.tag "") 1 0, .language "de" true,
        .language "en" false] ∧
      driftedCatalog.audit.drift.Nodup ∧
      ∀ d, d ∈ driftedCatalog.audit.drift ↔ driftedCatalog.Drifts d :=
  ⟨keyed_driftedCatalog, by decide +kernel, keyed_driftedCatalog.audit_lists⟩

end Catalog

end TagCatalog
