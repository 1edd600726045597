import Mathlib
import TagCatalog.Text.Blank
import TagCatalog.Text.Lower

/-! What lower-casing and trimming leave as it is. No lower case has a lower case of its own or is
white space, so that a text that was trimmed and lower-cased is trimmed and in lower case. -/

namespace TagCatalog

namespace Text

/-! ## Runs of the case table -/

namespace CaseRun

/-- No lower case that the run gives lies in a closed range. -/
def avoids (r : CaseRun) (range : Nat × Nat) : Bool :=
  Nat.blt (r.image r.last) range.1 || Nat.blt range.2 r.target

/-- No lower case that the run gives is an upper case of the other. -/
def misses (r other : CaseRun) : Bool :=
  r.avoids (other.first, other.last) || (List.range (r.last - r.first + 1)).all fun k =>
    !r.covers (r.first + k) || !other.covers (r.image (r.first + k))

theorem not_mem_of_avoids {r : CaseRun} {range : Nat × Nat} {n : Nat} (h : r.avoids range = true)
    (hn : r.covers n = true) : ¬ (range.1 ≤ r.image n ∧ r.image n ≤ range.2) := by
  simp only [avoids, image, Bool.or_eq_true, Nat.blt_eq] at h
  simp only [covers, Bool.and_eq_true, decide_eq_true_eq] at hn
  simp only [image]
  omega

theorem not_covers_of_misses {r other : CaseRun} {n : Nat} (h : r.misses other = true)
    (hn : r.covers n = true) : other.covers (r.image n) = false := by
  rcases Bool.or_eq_true _ _ ▸ h with havoids | hall
  · by_contra hcovers
    have hout := not_mem_of_avoids havoids hn
    simp only [covers, Bool.not_eq_false, Bool.and_eq_true, decide_eq_true_eq] at hcovers
    exact hout hcovers.1
  · have hrange : r.first ≤ n ∧ n ≤ r.last := by
      simp only [covers, Bool.and_eq_true, decide_eq_true_eq] at hn
      exact hn.1
    have hk := List.all_eq_true.mp hall (n - r.first) (List.mem_range.mpr (by omega))
    rw [Nat.add_sub_cancel' hrange.1, hn] at hk
    simpa using hk

end CaseRun

theorem misses_of_mem_lowerRuns {r other : CaseRun} (h : r ∈ lowerRuns) (ho : other ∈ lowerRuns) :
    r.misses other = true := by
  have hall : (lowerRuns.all fun r => lowerRuns.all r.misses) = true := by decide +kernel
  exact List.all_eq_true.mp (List.all_eq_true.mp hall r h) other ho

/-- White space, half surrogate pairs, the dotted capital I and the capital sigma. -/
def neverLower : List (Nat × Nat) :=
  (0xD800, 0xDFFF) :: (0x130, 0x130) :: (0x3A3, 0x3A3) :: blankRanges

theorem avoids_of_mem_lowerRuns {r : CaseRun} (h : r ∈ lowerRuns) {range : Nat × Nat}
    (hrange : range ∈ neverLower) : r.avoids range = true := by
  have hall : (lowerRuns.all fun r => neverLower.all r.avoids) = true := by decide +kernel
  exact List.all_eq_true.mp (List.all_eq_true.mp hall r h) range hrange

theorem image_lt_of_mem_lowerRuns {r : CaseRun} (h : r ∈ lowerRuns) {n : Nat}
    (hn : r.covers n = true) : r.image n < 0x110000 := by
  have hall : (lowerRuns.all fun r => Nat.blt (r.image r.last) 0x110000) = true := by
    decide +kernel
  have hlast := List.all_eq_true.mp hall r h
  simp only [CaseRun.image, Nat.blt_eq] at hlast
  simp only [CaseRun.covers, Bool.and_eq_true, decide_eq_true_eq] at hn
  simp only [CaseRun.image]
  omega

/-! ## Characters -/

/-- Lower-casing leaves the character as it is, wherever it stands. -/
def Settled (c : Char) : Prop := c ≠ 'Σ' ∧ lowerChar c = [c]

theorem settled_ofNat_image {r : CaseRun} (h : r ∈ lowerRuns) {n : Nat} (hn : r.covers n = true) :
    Settled (Char.ofNat (r.image n)) ∧ isBlank (Char.ofNat (r.image n)) = false := by
  have hout (range : Nat × Nat) (hrange : range ∈ neverLower) :=
    CaseRun.not_mem_of_avoids (avoids_of_mem_lowerRuns h hrange) hn
  have hvalid : (r.image n).isValidChar := by
    have hhalf := hout (0xD800, 0xDFFF) (by simp [neverLower])
    have hlt := image_lt_of_mem_lowerRuns h hn
    simp only [Nat.isValidChar]
    omega
  have hnat : (Char.ofNat (r.image n)).toNat = r.image n := by rw [Char.toNat_ofNat, if_pos hvalid]
  have hne {c : Char} (hc : (c.toNat, c.toNat) ∈ neverLower) : Char.ofNat (r.image n) ≠ c := by
    intro heq
    have hsame : r.image n = c.toNat := by rw [← hnat, heq]
    exact hout _ hc ⟨hsame.ge, hsame.le⟩
  have hnone : lowerRuns.find? (·.covers (r.image n)) = none := by
    rw [List.find?_eq_none]
    intro other ho
    simp [CaseRun.not_covers_of_misses (misses_of_mem_lowerRuns h ho) hn]
  refine ⟨⟨hne (by decide), ?_⟩, ?_⟩
  · rw [lowerChar, if_neg (hne (by decide)), hnat, hnone]
  · rw [isBlank, hnat, List.any_eq_false]
    intro range hrange hmem
    simp only [Bool.and_eq_true, decide_eq_true_eq] at hmem
    exact hout range (by simp [neverLower, hrange]) hmem

theorem settled_sigma (before after : List Char) :
    Settled (lowerSigma before after) ∧ isBlank (lowerSigma before after) = false := by
  unfold lowerSigma
  split
  · exact ⟨⟨by decide, by decide +kernel⟩, by decide⟩
  · exact ⟨⟨by decide, by decide +kernel⟩, by decide⟩

theorem settled_of_mem_lowerChar {c d : Char} (hc : c ≠ 'Σ') (h : d ∈ lowerChar c) :
    Settled d ∧ (isBlank c = false → isBlank d = false) := by
  unfold lowerChar at h
  split at h
  · rcases List.mem_pair.mp h with rfl | rfl
    · exact ⟨⟨by decide, by decide +kernel⟩, fun _ => by decide⟩
    · exact ⟨⟨by decide, by decide +kernel⟩, fun _ => by decide⟩
  · rename_i hdotted
    split at h
    · rename_i r hfind
      obtain rfl := List.mem_singleton.mp h
      have hcovers : r.covers c.toNat = true := by simpa using List.find?_some hfind
      obtain ⟨hsettled, hblank⟩ := settled_ofNat_image (List.mem_of_find?_eq_some hfind) hcovers
      exact ⟨hsettled, fun _ => hblank⟩
    · rename_i hnone
      obtain rfl := List.mem_singleton.mp h
      exact ⟨⟨hc, by rw [lowerChar, if_neg hdotted, hnone]⟩, id⟩

/-! ## Texts -/

theorem lowerChar_ne_nil (c : Char) : lowerChar c ≠ [] := by
  unfold lowerChar
  split
  · simp
  · split <;> simp

theorem lower_eq_nil_iff {cs : List Char} : lower cs = [] ↔ cs = [] := by
  cases cs with
  | nil => simp [lower, lowerFrom]
  | cons c cs =>
    unfold lower lowerFrom
    split
    · simp
    · simp [lowerChar_ne_nil]

/-- What stands for one character in a text that is lower-cased. -/
def lowerAt (before : List Char) (c : Char) (after : List Char) : List Char :=
  if c = 'Σ' then [lowerSigma before after] else lowerChar c

theorem lowerFrom_cons (before : List Char) (c : Char) (cs : List Char) :
    lowerFrom before (c :: cs) = lowerAt before c cs ++ lowerFrom (c :: before) cs := rfl

theorem lowerAt_ne_nil (before : List Char) (c : Char) (after : List Char) :
    lowerAt before c after ≠ [] := by
  unfold lowerAt
  split
  · simp
  · exact lowerChar_ne_nil c

theorem settled_of_mem_lowerAt {before after : List Char} {c d : Char}
    (h : d ∈ lowerAt before c after) : Settled d ∧ (isBlank c = false → isBlank d = false) := by
  unfold lowerAt at h
  split at h
  · obtain rfl := List.mem_singleton.mp h
    obtain ⟨hsettled, hblank⟩ := settled_sigma before after
    exact ⟨hsettled, fun _ => hblank⟩
  · rename_i hc
    exact settled_of_mem_lowerChar hc h

theorem settled_of_mem_lowerFrom {before cs : List Char} {d : Char} (h : d ∈ lowerFrom before cs) :
    Settled d := by
  induction cs generalizing before with
  | nil => cases h
  | cons c cs ih =>
    rw [lowerFrom_cons, List.mem_append] at h
    rcases h with h | h
    · exact (settled_of_mem_lowerAt h).1
    · exact ih h

theorem lowerFrom_of_settled {cs : List Char} (h : ∀ c ∈ cs, Settled c) (before : List Char) :
    lowerFrom before cs = cs := by
  induction cs generalizing before with
  | nil => rfl
  | cons c cs ih =>
    obtain ⟨hc, hlower⟩ := h c List.mem_cons_self
    rw [lowerFrom_cons, ih (fun d hd => h d (List.mem_cons_of_mem c hd)), lowerAt, if_neg hc, hlower]
    rfl

theorem lower_lower (cs : List Char) : lower (lower cs) = lower cs :=
  lowerFrom_of_settled (fun _ => settled_of_mem_lowerFrom) []

/-! ## Trimmed texts -/

theorem trim_eq_nil_iff {cs : List Char} : trim cs = [] ↔ ∀ c ∈ cs, isBlank c = true := by
  have hend (cs : List Char) : trimEnd cs = [] ↔ ∀ c ∈ cs, isBlank c = true := by
    simp [trimEnd, List.dropWhile_eq_nil_iff]
  rw [trim, hend]
  constructor
  · intro h c hc
    by_contra hblank
    have hdrop : cs.dropWhile isBlank ≠ [] := by
      rw [Ne, List.dropWhile_eq_nil_iff]
      exact fun hall => hblank (hall c hc)
    have hhead := List.head_dropWhile_not isBlank hdrop
    rw [h _ (List.head_mem hdrop)] at hhead
    cases hhead
  · intro h c hc
    exact h c ((List.dropWhile_sublist _).subset hc)

/-- A text neither starts nor ends with white space. -/
structure Trimmed (cs : List Char) : Prop where
  head : ∀ c, cs.head? = some c → isBlank c = false
  last : ∀ c, cs.getLast? = some c → isBlank c = false

theorem trimEnd_eq_rdropWhile (cs : List Char) : trimEnd cs = cs.rdropWhile isBlank := rfl

theorem trimmed_trim (cs : List Char) : Trimmed (trim cs) := by
  rw [trim, trimEnd_eq_rdropWhile]
  refine ⟨fun c hc => ?_, fun c hc => ?_⟩
  · -- What is cut off the end leaves the first character in its place.
    obtain ⟨rest, hrest⟩ := List.rdropWhile_prefix isBlank (cs.dropWhile isBlank)
    have hhead : (cs.dropWhile isBlank).head? = some c := by
      rw [← hrest, List.head?_append, hc, Option.some_or]
    have hnot := List.head?_dropWhile_not isBlank cs
    rw [hhead] at hnot
    simpa using hnot
  · have hne : (cs.dropWhile isBlank).rdropWhile isBlank ≠ [] := by
      intro hnil
      simp [hnil] at hc
    have hlast := List.rdropWhile_last_not isBlank _ hne
    rw [List.getLast?_eq_some_getLast hne, Option.some.injEq] at hc
    rw [hc] at hlast
    simpa using hlast

theorem Trimmed.trim_eq {cs : List Char} (h : Trimmed cs) : trim cs = cs := by
  have hdrop : cs.dropWhile isBlank = cs := by
    rw [List.dropWhile_eq_self_iff]
    intro hpos
    simp [h.head cs[0] (by rw [List.head?_eq_getElem?, List.getElem?_eq_getElem hpos])]
  rw [trim, hdrop, trimEnd_eq_rdropWhile, List.rdropWhile_eq_self_iff]
  intro hne
  simp [h.last (cs.getLast hne) (List.getLast?_eq_some_getLast hne)]

theorem getLast?_lowerFrom {before cs : List Char} {c d : Char} (hc : cs.getLast? = some c)
    (hd : (lowerFrom before cs).getLast? = some d) : isBlank c = false → isBlank d = false := by
  induction cs generalizing before with
  | nil => cases hc
  | cons b cs ih =>
    rw [lowerFrom_cons] at hd
    cases cs with
    | nil =>
      obtain rfl : b = c := by simpa using hc
      rw [lowerFrom, List.append_nil] at hd
      exact (settled_of_mem_lowerAt (List.mem_of_getLast? hd)).2
    | cons b' cs =>
      have hrest : lowerFrom (b :: before) (b' :: cs) ≠ [] := by
        simp [lowerFrom_cons, lowerAt_ne_nil]
      rw [List.getLast?_append_of_ne_nil _ hrest] at hd
      exact ih (by simpa using hc) hd

theorem Trimmed.lower {cs : List Char} (h : Trimmed cs) : Trimmed (Text.lower cs) := by
  cases cs with
  | nil => exact h
  | cons c cs =>
    refine ⟨fun d hd => ?_, fun d hd => ?_⟩
    · rw [Text.lower, lowerFrom_cons, List.head?_append_of_ne_nil _ (lowerAt_ne_nil _ _ _)] at hd
      exact (settled_of_mem_lowerAt (List.mem_of_head? hd)).2 (h.head c rfl)
    · have hlast := List.getLast?_eq_some_getLast (List.cons_ne_nil c cs)
      exact getLast?_lowerFrom hlast hd (h.last _ hlast)

theorem trim_lower_trim (cs : List Char) : trim (lower (trim cs)) = lower (trim cs) :=
  (trimmed_trim cs).lower.trim_eq

end Text

end TagCatalog
