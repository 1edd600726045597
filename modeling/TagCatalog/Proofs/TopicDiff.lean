import TagCatalog.Proofs.Discovery
import TagCatalog.Proofs.IssuedIds
import TagCatalog.Proofs.Refreshing

/-! Classifying as a change from one set of topics to another. It does no more than the two sets differ
in, says how much that was, and does nothing at all if it is refused. -/

namespace TagCatalog

/-- What going from one set of topics to another counts. -/
def Report.ofDiff (old new : Finset Topic) (content : Nat) : Report where
  created := (new \ old).card
  refreshed := (new ∩ old).card
  removed := (old \ new).card
  visited := [content]

namespace Catalog

open EntryTable (Issues)

variable {s : Settings} {source : ContentSource} {c d : Catalog} {content : Nat}
  {topics : List Topic}

def topicSet (c : Catalog) (content : Nat) : Finset Topic :=
  ((c.entriesOfContent content).map (·.topic)).toFinset

theorem mem_topicSet (h : c.Sound) {topic : Topic} : topic ∈ c.topicSet content ↔
    ∃ id e, c.table.get? id = some e ∧ e.content = content ∧ e.topic = topic := by
  simp only [topicSet, List.mem_toFinset, List.mem_map, mem_entriesOfContent h]
  constructor
  · intro hh
    obtain ⟨e, ⟨⟨id, he⟩, hcontent⟩, htopic⟩ := hh
    exact ⟨id, e, he, hcontent, htopic⟩
  · intro hh
    obtain ⟨id, e, he, hcontent, htopic⟩ := hh
    exact ⟨e, ⟨⟨id, he⟩, hcontent⟩, htopic⟩

theorem length_new (hn : topics.Nodup) {keep : Entry → Bool}
    (hkeep : ∀ e ∈ c.entriesOfContent content, keep e = true ↔ e.topic ∈ topics) :
    (topics.filter fun t =>
      !((c.entriesOfContent content).filter keep).any (·.topic = t)).length =
      (topics.toFinset \ c.topicSet content).card := by
  rw [← List.toFinset_card_of_nodup (hn.filter _)]
  congr 1
  ext topic
  simp only [List.mem_toFinset, List.mem_filter, Finset.mem_sdiff, topicSet, List.mem_map]
  refine and_congr_right fun htopic => ?_
  rw [Bool.not_eq_true', ← Bool.not_eq_true, List.any_eq_true]
  refine not_congr ⟨fun hh => ?_, fun hh => ?_⟩
  · obtain ⟨e, he, het⟩ := hh
    exact ⟨e, (List.mem_filter.mp he).1, of_decide_eq_true het⟩
  · obtain ⟨e, he, rfl⟩ := hh
    exact ⟨e, List.mem_filter.mpr ⟨he, (hkeep e he).mpr htopic⟩, decide_eq_true rfl⟩

theorem length_stale (h : c.Sound) {keep : Entry → Bool}
    (hkeep : ∀ e ∈ c.entriesOfContent content, keep e = true ↔ e.topic ∈ topics) :
    ((c.entriesOfContent content).filter (!keep ·)).length =
      (c.topicSet content \ topics.toFinset).card := by
  have hnodup : (((c.entriesOfContent content).filter (!keep ·)).map (·.topic)).Nodup :=
    (nodup_topics_of_entries h content).sublist (List.filter_sublist.map _)
  rw [← List.length_map (·.topic), ← List.toFinset_card_of_nodup hnodup]
  congr 1
  ext topic
  simp only [List.mem_toFinset, List.mem_map, List.mem_filter, Finset.mem_sdiff, topicSet]
  constructor
  · intro hh
    obtain ⟨e, ⟨he, hgone⟩, rfl⟩ := hh
    refine ⟨⟨e, he, rfl⟩, fun hmem => ?_⟩
    simp [(hkeep e he).mpr hmem] at hgone
  · intro hh
    obtain ⟨⟨e, he, rfl⟩, hmem⟩ := hh
    refine ⟨e, ⟨he, ?_⟩, rfl⟩
    rw [Bool.not_eq_true', ← Bool.not_eq_true, hkeep e he]
    exact hmem

theorem yields_classify_report (h : c.Sound) (a : Address) :
    Update.Yields (classify s source a) c
      (fun r d => ∃ content, source.at? a = some content ∧
        r = .ofDiff (c.topicSet content.id) (source.classify s content).topics.toFinset content.id ∧
        Issues r.created c.table d.table)
      fun _ _ => True := by
  simp only [classify, Update.yields_bind, yields_requireContent, implies_true, and_true]
  intro content hcontent
  split
  case isFalse => trivial
  have hkeep : ∀ e ∈ c.entriesOfContent content.id,
      stays (source.classify s content) e = true ↔ e.topic ∈ (source.classify s content).topics := by
    intro e he
    obtain ⟨⟨id, hid⟩, -⟩ := (mem_entriesOfContent h).mp he
    exact stays_iff (h.named id e hid) _
  have hnew := length_new (Classification.nodup_topics (source.classify s content)) hkeep
  rw [Update.yields_bind]
  refine yields_requireParent content (fun parent _ => ?_) fun _ _ _ => trivial
  simp only [Update.yields_bind, Update.yields_get, Update.yields_pure]
  refine yields_present h content.id ?_
  refine (yields_placeAll_issues content _ _ _).imp fun _ d hplaced => ?_
  refine (yields_withdrawAll_issues Entry.id _).imp fun _ d' hwithdrawn => ?_
  -- The report counts as refreshed the topics that were not created.
  have hsum := Finset.card_sdiff_add_card_inter (source.classify s content).topics.toFinset
    (c.topicSet content.id)
  rw [List.toFinset_card_of_nodup (Classification.nodup_topics _)] at hsum
  refine ⟨content, hcontent, ?_, hplaced.trans hwithdrawn⟩
  simp only [Report.ofDiff, Report.mk.injEq, and_true]
  refine ⟨hnew, ?_, length_stale h hkeep⟩
  rw [hnew]
  omega

/-- Content is filed under new topics. Where it was before, its entries keep their ids; the others of it
get ids that were never given. Nothing else is filed or withdrawn, rows that are left without entries
are gone, and those that are not keep what was paid. -/
structure Refiled (content : Nat) (new : Finset Topic) (c d : Catalog) : Prop where
  topicSet_eq : d.topicSet content = new
  kept : ∀ id e, c.table.get? id = some e → e.content = content → e.topic ∈ new →
    ∃ e', d.table.get? id = some e' ∧ e'.filing = e.filing
  fresh : ∀ topic ∈ new \ c.topicSet content, ∃ id e, d.table.get? id = some e ∧
    e.filing = ⟨topic, content⟩ ∧ c.table.nextId ≤ id
  others : ∀ id e, e.content ≠ content → (d.table.get? id = some e ↔ c.table.get? id = some e)
  vacant : ∀ topic, (∀ id e, d.table.get? id = some e → e.topic ≠ topic) →
    d.totals.topic? topic = none
  paid : ∀ topic row, c.totals.topic? topic = some row →
    (∃ id e, d.table.get? id = some e ∧ e.topic = topic) →
    ∃ row', d.totals.topic? topic = some row' ∧ row'.payout = row.payout

variable {written : Content} {parent : Option Nat}

theorem Reclassified.topicSet_eq (h : Reclassified s written parent topics c d) (hd : d.Sound) :
    d.topicSet written.id = topics.toFinset := by
  ext topic
  rw [mem_topicSet hd, List.mem_toFinset]
  constructor
  · intro hh
    obtain ⟨id, e, he, hcontent, rfl⟩ := hh
    exact h.topic_mem he hcontent
  · intro htopic
    obtain ⟨id, e, he, hfiling⟩ := h.there topic htopic
    exact ⟨id, e, he, congrArg Filing.content hfiling, congrArg Filing.topic hfiling⟩

theorem Reclassified.refiled (h : Reclassified s written parent topics c d) (hc : c.Sound)
    (hd : d.Sound) {k : Nat} (hissues : Issues k c.table d.table) (hcarries : c.totals.Carries d.totals) :
    Refiled written.id topics.toFinset c d := by
  refine ⟨h.topicSet_eq hd, ?_, ?_, fun id e hne => h.others hne, ?_, ?_⟩
  · intro id e he hcontent htopic
    refine ⟨e.refreshed s written, ?_, rfl⟩
    rw [h.old id e he, if_neg (by simpa using hcontent), if_pos (List.mem_toFinset.mp htopic)]
  · intro topic htopic
    obtain ⟨hmem, hnot⟩ := Finset.mem_sdiff.mp htopic
    obtain ⟨id, e, he, hfiling⟩ := h.there topic (List.mem_toFinset.mp hmem)
    refine ⟨id, e, he, hfiling, ?_⟩
    have htopic : e.topic = topic := congrArg Filing.topic hfiling
    rcases h.entry_cases he (congrArg Filing.content hfiling) with ⟨hnone, -⟩ | ⟨old, hold, hcontent, rfl⟩
    · -- An id that was free but given before would still be free.
      by_contra hlt
      cases he.symm.trans (hissues.free id (by omega) hnone)
    · exact absurd ((mem_topicSet hc).mpr ⟨id, old, hold, hcontent, htopic⟩) hnot
  · intro topic hnone
    rw [← Option.not_isSome_iff_eq_none, isSome_topic?_iff hd]
    intro hh
    obtain ⟨id, e, he, htopic⟩ := hh
    exact hnone id e he htopic
  · intro topic row hrow hoccupied
    obtain ⟨row', hrow'⟩ := Option.isSome_iff_exists.mp ((isSome_topic?_iff hd).mpr hoccupied)
    have hbefore : c.balance? (.topic topic) = some row.payout := by
      simp [balance?, Totals.balance?, hrow]
    have hafter : d.balance? (.topic topic) = some row'.payout := by
      simp [balance?, Totals.balance?, hrow']
    exact ⟨row', hrow', hcarries.balance_eq hbefore hafter⟩

/-- Classifying that overflows nothing is refused and changes nothing, or it makes the topics of the
content those that its metadata declares and reports how the two sets differ. -/
theorem classify_is_diff (h : Reachable c) (s : Settings) (source : ContentSource) (a : Address)
    (hno : Update.NoOverflow (classify s source a) c) :
    (∃ f, Refused source a f ∧ classify s source a c = .error (.fault f) c) ∨
    ∃ content d, source.at? a = some content ∧ content.isOpen = true ∧
      classify s source a c = .ok (.ofDiff (c.topicSet content.id)
        (source.classify s content).topics.toFinset content.id) d ∧
      Refiled content.id (source.classify s content).topics.toFinset c d := by
  have hsound := h.sound
  cases hrun : classify s source a c with
  | error halt d =>
    cases halt with
    | overflow => exact absurd hrun (hno d)
    | fault f =>
      obtain ⟨rfl, hrefused⟩ := (yields_classify hsound a).of_fault hrun
      exact .inl ⟨f, hrefused, rfl⟩
  | ok r d =>
    obtain ⟨hd, content, hcontent, hopen, heffect⟩ := (yields_classify hsound a).of_ok hrun
    obtain ⟨content', hcontent', hreport, hissues⟩ := (yields_classify_report hsound a).of_ok hrun
    obtain rfl := Option.some.inj (hcontent.symm.trans hcontent')
    have hcarries := (yields_classify_carries a).of_ok hrun
    have hrefiled := heffect.refiled hsound hd hissues hcarries
    exact .inr ⟨content, d, hcontent, hopen, by rw [hreport], hrefiled⟩

end Catalog

/-- A post about art is filed, and then rewritten as one about sports in English. -/
def artRewritten : Node := Node.nexts {}
  [.upsert { rootPost "news" with jsonMetadata := "\x7b\"tags\":[\"art\"]\x7d" },
    .apply (.comment ⟨"alice", "morning"⟩ "" "news"),
    .upsert { rootPost "news" with
      jsonMetadata := "\x7b\"tags\":[\"sports\"],\"language\":\"en\"\x7d" }] {}

theorem exists_history_artRewritten : ∃ F, History {} artRewritten F :=
  History.exists_nexts ⟨_, .start⟩ (by decide +kernel)

/-- The category stays, the old tag goes, and the new tag and the language come. -/
theorem Catalog.classify_is_diff_artRewritten :
    let m := classify {} artRewritten.ledger.source ⟨"alice", "morning"⟩
    Reachable artRewritten.catalog ∧ Update.NoOverflow m artRewritten.catalog ∧
      ∃ content d, artRewritten.ledger.source.at? ⟨"alice", "morning"⟩ = some content ∧
        m artRewritten.catalog = .ok (.ofDiff (artRewritten.catalog.topicSet content.id)
          (artRewritten.ledger.source.classify {} content).topics.toFinset content.id) d ∧
        Refiled content.id (artRewritten.ledger.source.classify {} content).topics.toFinset
          artRewritten.catalog d ∧
        Report.ofDiff (artRewritten.catalog.topicSet content.id)
          (artRewritten.ledger.source.classify {} content).topics.toFinset content.id =
          { created := 2, refreshed := 1, removed := 1, visited := [1] } := by
  intro m
  obtain ⟨F, hF⟩ := exists_history_artRewritten
  have hreturns : Update.returns m artRewritten.catalog = true := by decide +kernel
  have hno : Update.NoOverflow m artRewritten.catalog := Update.ne_overflow_of_returns hreturns
  have hreport : (Update.answer m artRewritten.catalog).toOption =
      some { created := 2, refreshed := 1, removed := 1, visited := [1] } := by decide +kernel
  rcases Catalog.classify_is_diff hF.reachable {} artRewritten.ledger.source _ hno with
    ⟨f, -, hfault⟩ | ⟨content, d, hcontent, -, hrun, hrefiled⟩
  · exact absurd hfault (Update.ne_error_of_returns hreturns _ _)
  · rw [Update.answer_of_ok hrun] at hreport
    exact ⟨hF.reachable, hno, content, d, hcontent, hrun, hrefiled, Option.some.inj hreport⟩

end TagCatalog
