import TagCatalog.Proofs.Soundness

/-! The votes of a topic are the only sum that withdrawing an entry forms. It takes more than
`2 ^ 32` entries before one overflows, so that a catalog of fewer can be cleared without a halt. -/

namespace TagCatalog

open Update

theorem Entry.netVotes_natAbs_le (e : Entry) : e.netVotes.toInt.natAbs ≤ 2 ^ 31 := by
  have hlow := e.netVotes.le_toInt
  have hhigh := e.netVotes.toInt_lt
  omega

theorem natAbs_sum_votes_le (es : List Entry) :
    (es.map fun e : Entry => e.netVotes.toInt).sum.natAbs ≤ 2 ^ 31 * es.length := by
  induction es with
  | nil => simp
  | cons e es ih =>
    have he := e.netVotes_natAbs_le
    have hadd := Int.natAbs_add_le e.netVotes.toInt (es.map fun e : Entry => e.netVotes.toInt).sum
    rw [List.map_cons, List.sum_cons, List.length_cons]
    omega

theorem TopicTotals.natAbs_recount_netVotes_le (topic : Topic) (es : List Entry) (payout : Nat) :
    (recount topic es payout).netVotes.natAbs ≤ 2 ^ 31 * es.length := by
  have hsum := natAbs_sum_votes_le (es.filter (·.topic = topic))
  have hlength := List.length_filter_le (fun e : Entry => decide (e.topic = topic)) es
  exact hsum.trans (Nat.mul_le_mul_left _ hlength)

namespace Totals

variable {t : Totals} {e : Entry} {es : List Entry}

/-- The votes of the entry's topic without its own are a sum that the row can hold. -/
def VotesFit (t : Totals) (e : Entry) : Prop :=
  ∀ row, t.topic? e.topic = some row →
    -(2 ^ (64 - 1)) ≤ row.netVotes - e.netVotes.toInt ∧
      row.netVotes - e.netVotes.toInt < 2 ^ (64 - 1)

theorem TopicRows.votesFit (h : TopicRows t.topics (e :: es)) (hlength : es.length < 2 ^ 32) :
    t.VotesFit e := by
  intro row hrow
  have hr : row = .recount e.topic (e :: es) row.payout := h.row_eq e.topic row hrow
  rw [TopicTotals.recount_cons_self] at hr
  have hvotes : row.netVotes - e.netVotes.toInt =
      (TopicTotals.recount e.topic es row.payout).netVotes := by
    rw [congrArg TopicTotals.netVotes hr, TopicTotals.plus_netVotes, Int.add_sub_cancel]
  have hbound := TopicTotals.natAbs_recount_netVotes_le e.topic es row.payout
  omega

theorem noOverflow_subtract {row row' : TopicTotals} (hless : lessCounts e row = .ok row') :
    NoOverflow (subtract e row) t ↔ -(2 ^ (64 - 1)) ≤ row.netVotes - e.netVotes.toInt ∧
      row.netVotes - e.netVotes.toInt < 2 ^ (64 - 1) := by
  have hplus := congrArg TopicTotals.netVotes (plus_of_lessCounts hless)
  have hvotes : row'.netVotes = row.netVotes := by simpa [TopicTotals.lessVotes] using hplus
  simp [subtract, hless, hvotes]

theorem noOverflow_remove (h : t.VotesFit e) : NoOverflow (remove e) t := by
  simp only [remove, noOverflow_bind, noOverflow_get, yields_get, noOverflow_require,
    yields_require, implies_true, and_true, true_and]
  intro row hrow
  refine ⟨?_, .of_forall (fun last u => ?_) fun _ _ => trivial⟩
  · cases hless : lessCounts e row with
    | error f => simp [subtract, hless]
    | ok row' => exact (noOverflow_subtract hless).mpr (h row hrow)
  · split
    · simp
    · simp

theorem noOverflow_removePost (author : String) (topic : Topic) :
    NoOverflow (removePost author topic) t := by
  simp only [removePost, noOverflow_bind, noOverflow_get, yields_get, noOverflow_require, true_and]
  refine .of_forall (fun row u => ?_) fun _ _ => trivial
  split <;> simp

end Totals

namespace Catalog

variable {c : Catalog}

@[simp]
theorem noOverflow_onTable {α : Type} (m : Update EntryTable α) :
    NoOverflow (onTable m) c ↔ NoOverflow m c.table := noOverflow_within _ _ m

@[simp]
theorem noOverflow_onTotals {α : Type} (m : Update Totals α) :
    NoOverflow (onTotals m) c ↔ NoOverflow m c.totals := noOverflow_within _ _ m

theorem noOverflow_withdrawEntry {id : Nat}
    (h : ∀ e, c.table.get? id = some e → c.totals.VotesFit e) :
    NoOverflow (withdrawEntry id) c := by
  cases he : c.table.get? id with
  | none =>
    simp [NoOverflow, withdrawEntry_of_none he]
  | some e =>
    simp only [withdrawEntry, requireEntry, noOverflow_bind, noOverflow_get, yields_bind, yields_get,
      he, noOverflow_require, yields_require, Option.some.injEq, forall_eq', and_true, true_and,
      noOverflow_onTotals, noOverflow_onTable, implies_true, noOverflow_pure]
    intro row hrow
    refine ⟨Totals.noOverflow_remove (h e he), .of_forall (fun _ d => ?_) fun _ _ => trivial⟩
    refine ⟨Totals.noOverflow_removePost _ _, .of_forall (fun _ d => ?_) fun _ _ => trivial⟩
    refine ⟨?_, .of_forall (fun _ _ => trivial) fun _ _ => trivial⟩
    simp [EntryTable.remove]

theorem Sound.votesFit (h : c.Sound) (hsize : c.table.size ≤ 2 ^ 32) {id : Nat} {e : Entry}
    (he : c.table.get? id = some e) : c.totals.VotesFit e := by
  have hperm := values_perm_erase (m := c.table.entries) he
  have hlength : (c.table.entries.erase id).values.length < 2 ^ 32 := by
    have hsum := hperm.length_eq
    have hvalues : c.table.entries.values.length = c.table.size := c.table.length_toList
    rw [List.length_cons] at hsum
    omega
  exact (h.totals.perm hperm).topics.votesFit hlength

theorem noOverflow_withdrawAll {β : Type} (h : c.Sound) (hsize : c.table.size ≤ 2 ^ 32)
    (idOf : β → Nat) (bs : List β) : NoOverflow (bs.forM fun b => withdrawEntry (idOf b)) c := by
  refine noOverflow_forM (I := fun _ d => d.Sound ∧ d.table.size ≤ 2 ^ 32) bs ?_ ⟨h, hsize⟩
  intro b bs d hd
  obtain ⟨hd, hsize⟩ := hd
  refine ⟨noOverflow_withdrawEntry fun e he => hd.votesFit hsize he, ?_⟩
  cases he : d.table.get? (idOf b) with
  | none =>
    rw [Yields, withdrawEntry_of_none he]
    trivial
  | some e =>
    refine (yields_withdrawEntry hd he).mono ?_ fun _ _ _ => trivial
    intro _ d' hh
    obtain ⟨hd', -, hentries⟩ := hh
    have hless : d'.table.size ≤ d.table.size := by
      rw [EntryTable.size, EntryTable.size, hentries]
      exact Std.ExtTreeMap.size_erase_le
    exact ⟨hd', hless.trans hsize⟩

end Catalog

end TagCatalog
