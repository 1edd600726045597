import TagCatalog.Proofs.Reachability
import TagCatalog.Proofs.ScoreOrder

/-! The scores that a catalog holds. All of them were calculated, and a calculation knows one NaN
only, beyond infinity, so that a listing from infinity on leaves out just the entries without a
number. -/

namespace TagCatalog

namespace Score

open Float.Model

/-- A magnitude beyond infinity has an exponent of ones and a mantissa, which are the NaN alone. -/
theorem eq_packedNaN {b : BitVec Format.binary64.numBits} (hvalid : Format.binary64.Valid b)
    (hmagnitude : 2047 * 2 ^ 52 < b.toNat % 2 ^ 63) :
    b = UnpackedFloat.packedNaN Format.binary64 := by
  refine hvalid.eq_packedNaN ?_ fun hzero => ?_
  · have hones : (-BitVec.ofNat Format.binary64.exponentBits 1).toNat = 2047 := by decide
    apply BitVec.eq_of_toNat_eq
    rw [toNat_unpackExponent, hones]
    omega
  · have hmantissa := toNat_unpackMantissa b
    have hzeros : (BitVec.ofNat Format.binary64.mantissaBitsWithoutImplicit 0).toNat = 0 := by decide
    rw [hzero, hzeros] at hmantissa
    omega

theorem isNegative_ofFloat_of_isNaN {f : Float} (h : (ofFloat f).isNaN = true) :
    (ofFloat f).isNegative = false := by
  rw [isNaN, magnitude_infinity, decide_eq_true_eq] at h
  have hbits : f.toModel.toBits.toBitVec = UnpackedFloat.packedNaN Format.binary64 :=
    eq_packedNaN f.toModel.valid h
  change decide (2 ^ 63 ≤ f.toModel.toBits.toBitVec.toNat) = false
  rw [hbits]
  decide

theorem rank_le_infinity {s : Score} (h : s.isNaN = false) : s.rank ≤ infinity.rank := by
  have hinfinity : infinity.rank = (infinity.magnitude : Int) := by decide
  have hmagnitude : s.magnitude ≤ infinity.magnitude := by
    simpa [isNaN] using h
  rw [hinfinity]
  unfold rank
  split <;> omega

theorem rank_ofFloat_le_infinity_iff {f : Float} :
    (ofFloat f).rank ≤ infinity.rank ↔ (ofFloat f).isNaN = false := by
  refine ⟨fun hle => ?_, rank_le_infinity⟩
  by_contra hnan
  rw [Bool.not_eq_false] at hnan
  have hinfinity : infinity.rank = (infinity.magnitude : Int) := by decide
  have hbeyond : infinity.magnitude < (ofFloat f).magnitude := by simpa [isNaN] using hnan
  rw [rank, if_neg (by simp [isNegative_ofFloat_of_isNaN hnan]), hinfinity] at hle
  omega

end Score

/-- The scores of an entry were calculated from a weight and a time. -/
def Entry.Scored (e : Entry) : Prop :=
  ∃ (s : Settings) (rshares : Int64) (created : Instant),
    (e.hot, e.trending) = s.scores rshares created

theorem Entry.Scored.rank_hot_le_infinity_iff {e : Entry} (h : e.Scored) :
    e.hot.rank ≤ Score.infinity.rank ↔ e.hot.isNaN = false := by
  obtain ⟨s, rshares, created, hscores⟩ := h
  rw [show e.hot = s.hot.score rshares created from congrArg Prod.fst hscores]
  exact Score.rank_ofFloat_le_infinity_iff

theorem Entry.scored_refreshed (s : Settings) (content : Content) (e : Entry) :
    (e.refreshed s content).Scored :=
  ⟨s, content.netRshares, content.created, rfl⟩

theorem Entry.Scored.refreshedBy {e : Entry} (h : e.Scored) (s : Settings) (path : List Content) :
    (e.refreshedBy s path).Scored := by
  induction path generalizing e with
  | nil => exact h
  | cons content path ih =>
    unfold Entry.refreshedBy
    split
    · exact ih (e.scored_refreshed s content)
    · exact ih h

namespace Catalog

def Scored (c : Catalog) : Prop := ∀ id e, c.table.get? id = some e → e.Scored

variable {s : Settings} {c d : Catalog}

theorem Thinned.scored {keep : Entry → Bool} {path : List Content} (h : Thinned s keep path c d)
    (hc : c.Scored) : d.Scored := by
  intro id e he
  rw [h.2, Option.map_eq_some_iff] at he
  obtain ⟨a, ha, rfl⟩ := he
  obtain ⟨ha, -⟩ := Option.filter_eq_some_iff.mp ha
  exact (hc id a ha).refreshedBy s path

theorem Reclassified.scored {content : Content} {parent : Option Nat} {topics : List Topic}
    (h : Reclassified s content parent topics c d) (hc : c.Scored) : d.Scored := by
  intro id e he
  cases hold : c.table.get? id with
  | none =>
    obtain ⟨-, hnew⟩ := h.new id e hold he
    rw [hnew]
    exact ⟨s, content.netRshares, content.created, rfl⟩
  | some old =>
    rw [h.old id old hold] at he
    split_ifs at he
    · obtain rfl := Option.some.inj he
      exact hc id old hold
    · obtain rfl := Option.some.inj he
      exact old.scored_refreshed s content

theorem Altered.scored (h : c.Altered d) (hc : c.Scored) : d.Scored := by
  cases h with
  | kept h => exact h ▸ hc
  | reclassified h => exact h.scored hc
  | thinned h => exact h.scored hc

theorem Reachable.scored (h : Reachable c) : c.Scored := by
  induction h with
  | refl => simp [Scored, Catalog.empty, EntryTable.empty, EntryTable.get?]
  | tail hc hstep ih => exact (hstep.sound_altered (Reachable.sound hc)).2.scored ih

end Catalog

end TagCatalog
