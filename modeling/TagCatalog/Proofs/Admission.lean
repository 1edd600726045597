import Mathlib
import TagCatalog.Query

/-! When a query admits content, said of its four sets of names. -/

namespace TagCatalog

namespace Query

variable {q : Query} {cl : Classification}

/-- What a query asks of content. An empty selection asks for nothing. -/
structure Suits (q : Query) (cl : Classification) : Prop where
  language_selected : q.selectLanguages = ∅ ∨ cl.language ∈ q.selectLanguages
  language_kept : cl.language ∉ q.filterLanguages
  tags_kept : ∀ tag ∈ cl.tags, tag ∉ q.filterTags
  tag_selected : q.selectTags = ∅ ∨ ∃ tag ∈ cl.tags, tag ∈ q.selectTags

theorem guarded_contains (names : Names) (name : String) :
    (!names.isEmpty && names.contains name) = true ↔ name ∈ names := by
  rw [Bool.and_eq_true, Std.ExtTreeSet.contains_iff_mem, and_iff_right_iff_imp]
  intro hmem
  rw [Bool.not_eq_true', ← Bool.not_eq_true, Std.ExtTreeSet.isEmpty_iff]
  rintro rfl
  exact Std.ExtTreeSet.not_mem_empty hmem

/-- What a pass has found so far counts only if no filtered tag is still to come. -/
theorem admitsTags_iff {found : Bool} {tags : List String} :
    q.admitsTags found tags = true ↔
      (∀ tag ∈ tags, tag ∉ q.filterTags) ∧ (found = true ∨ ∃ tag ∈ tags, tag ∈ q.selectTags) := by
  induction tags generalizing found with
  | nil => simp [admitsTags]
  | cons tag tags ih =>
    have hguard := guarded_contains q.filterTags tag
    unfold admitsTags filtersTags
    by_cases hfiltered : tag ∈ q.filterTags
    · rw [if_pos (hguard.mpr hfiltered)]
      simp [hfiltered]
    · rw [if_neg (hguard.not.mpr hfiltered)]
      simp [hfiltered, ih, or_assoc]

theorem selectsTags_iff : q.selectsTags = true ↔ q.selectTags ≠ ∅ := by
  simp [selectsTags]

theorem selectsLanguages_iff : q.selectsLanguages = true ↔ q.selectLanguages ≠ ∅ := by
  simp [selectsLanguages]

theorem admits_iff_suits : q.admits cl = true ↔ q.Suits cl := by
  have hselects : (q.selectsLanguages && !q.selectLanguages.contains cl.language) = true ↔
      ¬ (q.selectLanguages = ∅ ∨ cl.language ∈ q.selectLanguages) := by
    rw [Bool.and_eq_true, selectsLanguages_iff, Bool.not_eq_true', ← Bool.not_eq_true,
      Std.ExtTreeSet.contains_iff_mem, not_or]
  have hfilters := guarded_contains q.filterLanguages cl.language
  have htags : q.admitsTags (!q.selectsTags) cl.tags.toList = true ↔
      (∀ tag ∈ cl.tags, tag ∉ q.filterTags) ∧
        (q.selectTags = ∅ ∨ ∃ tag ∈ cl.tags, tag ∈ q.selectTags) := by
    simp [admitsTags_iff, ← Bool.not_eq_true, selectsTags_iff]
  unfold admits
  split_ifs with hfree hrefused
  · -- A query without names asks for nothing.
    simp only [selectsTags, filtersTags, selectsLanguages, filtersLanguages, Bool.not_not,
      Bool.and_eq_true, Std.ExtTreeSet.isEmpty_iff] at hfree
    obtain ⟨⟨⟨hselected, hfiltered⟩, hlanguages⟩, hkept⟩ := hfree
    refine iff_of_true rfl ⟨.inl hlanguages, ?_, ?_, .inl hselected⟩
    · simp [hkept]
    · simp [hfiltered]
  · rw [Bool.or_eq_true, hselects, filtersLanguages, hfilters] at hrefused
    refine iff_of_false not_false fun hsuits => ?_
    rcases hrefused with hselected | hfiltered
    · exact hselected hsuits.language_selected
    · exact hsuits.language_kept hfiltered
  · rw [Bool.or_eq_true, hselects, filtersLanguages, hfilters, not_or, not_not] at hrefused
    rw [htags]
    constructor
    · intro hh
      exact ⟨hrefused.1, hrefused.2, hh.1, hh.2⟩
    · intro hsuits
      exact ⟨hsuits.tags_kept, hsuits.tag_selected⟩

theorem admitsTags_congr {tags tags' : List String} (h : ∀ tag, tag ∈ tags ↔ tag ∈ tags')
    (found : Bool) : q.admitsTags found tags = q.admitsTags found tags' := by
  rw [Bool.eq_iff_iff, admitsTags_iff, admitsTags_iff]
  simp only [h]

/-- Filters that grow refuse no less. -/
theorem Suits.of_filters_subset {filterTags filterLanguages : Names}
    (h : Suits { q with filterTags, filterLanguages } cl)
    (htags : ∀ tag ∈ q.filterTags, tag ∈ filterTags)
    (hlanguages : ∀ language ∈ q.filterLanguages, language ∈ filterLanguages) : q.Suits cl where
  language_selected := h.language_selected
  language_kept hmem := h.language_kept (hlanguages _ hmem)
  tags_kept tag htag hmem := h.tags_kept tag htag (htags tag hmem)
  tag_selected := h.tag_selected

/-- A query admits just what suits it: what a filter names it refuses whatever is selected, in
whatever order the tags are met, and a filter that grows lets nothing more through. -/
theorem admits_exact (q : Query) (cl : Classification) :
    (q.admits cl = true ↔ q.Suits cl) ∧
    ((cl.language ∈ q.filterLanguages ∨ ∃ tag ∈ cl.tags, tag ∈ q.filterTags) →
      ∀ selectTags selectLanguages,
        admits { q with selectTags, selectLanguages } cl = false) ∧
    (∀ tags : List String, (∀ tag, tag ∈ tags ↔ tag ∈ cl.tags) → ∀ found,
      q.admitsTags found tags = q.admitsTags found cl.tags.toList) ∧
    ∀ filterTags filterLanguages : Names, (∀ tag ∈ q.filterTags, tag ∈ filterTags) →
      (∀ language ∈ q.filterLanguages, language ∈ filterLanguages) → q.admits cl = false →
        admits { q with filterTags, filterLanguages } cl = false := by
  refine ⟨admits_iff_suits, ?_, ?_, ?_⟩
  · intro hfiltered selectTags selectLanguages
    rw [← Bool.not_eq_true, admits_iff_suits]
    intro hsuits
    rcases hfiltered with hlanguage | ⟨tag, htag, hmem⟩
    · exact hsuits.language_kept hlanguage
    · exact hsuits.tags_kept tag htag hmem
  · intro tags htags found
    exact admitsTags_congr (fun tag => (htags tag).trans Std.ExtTreeSet.mem_toList.symm) found
  · intro filterTags filterLanguages htags hlanguages hrefused
    rw [← Bool.not_eq_true, admits_iff_suits] at hrefused ⊢
    exact fun hsuits => hrefused (hsuits.of_filters_subset htags hlanguages)

/-- The selected tag is met behind the filtered one, which a further language in the filter does not
change. Without filters the same content is admitted. -/
theorem admits_exact_golos :
    let cl : Classification := ⟨.ofList ["golos", "crypto"], "en"⟩
    let q : Query := { selectTags := .ofList ["golos"], filterTags := .ofList ["crypto"] }
    q.admits cl = false ∧ (∃ tag ∈ cl.tags, tag ∈ q.filterTags) ∧
      admits { q with filterLanguages := .ofList ["ru"] } cl = false ∧
      Suits { q with filterTags := ∅ } cl := by
  intro cl q
  have hfiltered : ∃ tag ∈ cl.tags, tag ∈ q.filterTags := ⟨"crypto", by decide +kernel, by decide +kernel⟩
  obtain ⟨-, hrefuses, -, hgrows⟩ := admits_exact q cl
  have hrefused : q.admits cl = false := hrefuses (.inr hfiltered) q.selectTags q.selectLanguages
  refine ⟨hrefused, hfiltered, hgrows _ _ (fun _ h => h) (by simp [q]) hrefused, ?_⟩
  exact (admits_exact { q with filterTags := ∅ } cl).1.mp (by decide +kernel)

end Query

end TagCatalog
