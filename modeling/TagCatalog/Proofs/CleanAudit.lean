import TagCatalog.Proofs.Conservation

/-! What a clean audit leaves open in a catalog of which nothing else is known. It recounts posts,
comments and languages, but neither summed votes nor summed weights. -/

namespace TagCatalog

namespace Catalog

variable {c : Catalog}

/-- What a clean audit leaves open: the sums over entries, and rows of authors without posts. -/
theorem Keyed.tallied_iff (h : c.Keyed) : c.Tallied ↔ c.audit.drift = [] ∧
    (∀ topic row, c.totals.topic? topic = some row →
      row.netVotes = ((c.table.toList.filter (·.topic = topic)).map (·.netVotes.toInt)).sum ∧
      row.childrenRshares2 = ((c.table.toList.filter
        fun e => e.topic = topic && e.isRoot).map (·.childrenRshares2)).sum) ∧
    ∀ author topic row, c.totals.author? author topic = some row → row.posts ≠ 0 := by
  have hcount (author : String) (topic : Topic) :
      c.table.toList.countP (fun e => e.author = author && e.topic = topic) ≠ 0 ↔
        ∃ e ∈ c.table.toList, e.author = author ∧ e.topic = topic := by
    rw [← Nat.pos_iff_ne_zero, List.countP_pos_iff]
    simp
  rw [h.audit_drift_eq_nil_iff]
  constructor
  · intro ht
    refine ⟨⟨ht.topic_isSome, fun topic row hr => ?_, fun author topic => ?_, ht.language⟩,
      fun topic row hr => (ht.topic_row topic row hr).2.2, fun author topic row hr => ?_⟩
    · obtain ⟨hposts, hcomments, -⟩ := ht.topic_row topic row hr
      exact ⟨hposts, hcomments⟩
    · cases hr : c.totals.author? author topic with
      | some row => exact ht.author_row author topic row hr
      | none =>
        have hnone := (ht.author_isSome author topic).not.mp (by simp [hr])
        exact (not_ne_iff.mp ((hcount author topic).not.mpr hnone)).symm
    · rw [ht.author_row author topic row hr, hcount]
      exact (ht.author_isSome author topic).mp (by simp [hr])
  · intro hh
    obtain ⟨hcounted, hsums, hposts⟩ := hh
    refine ⟨hcounted.topic_isSome, fun topic row hr => ?_, fun author topic => ?_,
      fun author topic row hr => ?_, hcounted.language⟩
    · obtain ⟨hroots, hcomments⟩ := hcounted.topic_row topic row hr
      exact ⟨hroots, hcomments, hsums topic row hr⟩
    · have hall := hcounted.author_posts author topic
      rw [← hcount, ← hall]
      cases hr : c.totals.author? author topic with
      | some row => simpa using hposts author topic row hr
      | none => simp
    · have hall := hcounted.author_posts author topic
      rwa [hr] at hall

def resummed (c : Catalog) (row : TopicTotals) (netVotes : Int) (childrenRshares2 : Nat) : Catalog :=
  { c with totals := c.totals.putTopic row.topic { row with netVotes, childrenRshares2 } }

theorem Counted.resummed (h : c.Counted) {row : TopicTotals}
    (hr : c.totals.topic? row.topic = some row) (netVotes : Int) (childrenRshares2 : Nat) :
    (c.resummed row netVotes childrenRshares2).Counted := by
  refine ⟨fun topic => ?_, fun topic row' hr' => ?_, h.author_posts, h.language⟩
  · refine Iff.trans ?_ (h.topic_isSome topic)
    rw [Catalog.resummed, Totals.topic?_putTopic]
    split
    · rename_i htopic
      rw [← htopic, hr]
      rfl
    · rfl
  · rw [Catalog.resummed, Totals.topic?_putTopic] at hr'
    split at hr'
    · rename_i htopic
      obtain rfl := Option.some.inj hr'
      exact htopic ▸ h.topic_row row.topic row hr
    · exact h.topic_row topic row' hr'

theorem Keyed.resummed (h : c.Keyed) (row : TopicTotals) (netVotes : Int)
    (childrenRshares2 : Nat) : (c.resummed row netVotes childrenRshares2).Keyed := by
  refine ⟨fun topic row' hr' => ?_, h.authors⟩
  rw [Catalog.resummed, Totals.topic?_putTopic] at hr'
  split at hr'
  · rename_i htopic
    rw [← Option.some.inj hr']
    exact htopic
  · exact h.topics topic row' hr'

/-- A sound catalog with a row has beside it one with other sums and an audit as clean. -/
theorem Sound.exists_clean_not_tallied (h : c.Sound) {topic : Topic} {row : TopicTotals}
    (hr : c.totals.topic? topic = some row) :
    ∃ d : Catalog, d.table = c.table ∧ d.Keyed ∧ d.audit.drift = [] ∧ ¬ d.Tallied := by
  have htopic : row.topic = topic := h.keyed.topics topic row hr
  subst htopic
  have hkeyed := h.keyed.resummed row (row.netVotes + 1) row.childrenRshares2
  have hclean := hkeyed.audit_drift_eq_nil_iff.mpr (h.counted.resummed hr _ _)
  refine ⟨c.resummed row (row.netVotes + 1) row.childrenRshares2, rfl, hkeyed, hclean, ?_⟩
  intro htallied
  have hput : (c.resummed row (row.netVotes + 1) row.childrenRshares2).totals.topic? row.topic =
      some { row with netVotes := row.netVotes + 1 } := by
    rw [Catalog.resummed, Totals.topic?_putTopic, if_pos rfl]
  have hright := (h.tallied.topic_row row.topic row hr).2.2.1
  have hwrong := (htallied.topic_row row.topic _ hput).2.2.1
  change row.netVotes + 1 = _ at hwrong
  rw [hright] at hwrong
  exact absurd hwrong (Int.ne_of_gt (Int.lt_succ _))

end Catalog

end TagCatalog
