import TagCatalog.Entry

/-! The keys that the orders of an entry table sort by. -/

namespace TagCatalog

/-- At most one entry has this topic and content. -/
structure Filing where
  topic : Topic
  content : Nat
  deriving DecidableEq, Repr

structure ContentPlace where
  content : Nat
  id : Nat
  deriving DecidableEq, Repr

structure AuthorPlace where
  author : String
  content : Nat
  id : Nat
  deriving DecidableEq, Repr

/-- An entry among those of its topic, greater keys first. -/
structure TopicPlace (κ : Type) where
  topic : Topic
  key : κ
  id : Nat
  deriving DecidableEq, Repr

section

open Std

instance : Ord Filing where
  compare := compareLex (compareOn (·.topic)) (compareOn (·.content))

instance : TransOrd Filing :=
  inferInstanceAs <| TransCmp (compareLex (compareOn Filing.topic) (compareOn Filing.content))

instance : LawfulEqOrd Filing where
  eq_of_compare {a b} h := by
    have h := compareLex_eq_eq.mp h
    have h₁ := LawfulEqOrd.eq_of_compare (α := Topic) h.1
    have h₂ := LawfulEqOrd.eq_of_compare (α := Nat) h.2
    cases a
    cases b
    simp_all

instance : Ord ContentPlace where
  compare := compareLex (compareOn (·.content)) (compareOn (·.id))

instance : TransOrd ContentPlace :=
  inferInstanceAs <| TransCmp (compareLex (compareOn ContentPlace.content)
    (compareOn ContentPlace.id))

instance : LawfulEqOrd ContentPlace where
  eq_of_compare {a b} h := by
    have h := compareLex_eq_eq.mp h
    have h₁ := LawfulEqOrd.eq_of_compare (α := Nat) h.1
    have h₂ := LawfulEqOrd.eq_of_compare (α := Nat) h.2
    cases a
    cases b
    simp_all

instance : Ord AuthorPlace where
  compare := compareLex (compareOn (·.author))
    (compareLex (compareOn (·.content)) (compareOn (·.id)))

instance : TransOrd AuthorPlace :=
  inferInstanceAs <| TransCmp (compareLex (compareOn AuthorPlace.author)
    (compareLex (compareOn AuthorPlace.content) (compareOn AuthorPlace.id)))

instance : LawfulEqOrd AuthorPlace where
  eq_of_compare {a b} h := by
    have h := compareLex_eq_eq.mp h
    have h' := compareLex_eq_eq.mp h.2
    have h₁ := LawfulEqOrd.eq_of_compare (α := String) h.1
    have h₂ := LawfulEqOrd.eq_of_compare (α := Nat) h'.1
    have h₃ := LawfulEqOrd.eq_of_compare (α := Nat) h'.2
    cases a
    cases b
    simp_all

variable {κ : Type} [Ord κ]

/-- Topics ascend, keys descend, and ids ascend among equal keys. -/
def TopicPlace.compareKeys : TopicPlace κ → TopicPlace κ → Ordering :=
  compareLex (compareOn (·.topic))
    (compareLex (fun a b => compareOn (·.key) b a) (compareOn (·.id)))

instance : Ord (TopicPlace κ) where
  compare := TopicPlace.compareKeys

instance [TransOrd κ] : TransOrd (TopicPlace κ) :=
  inferInstanceAs <| TransCmp (compareLex (compareOn (TopicPlace.topic (κ := κ)))
    (compareLex (fun a b => compareOn TopicPlace.key b a) (compareOn TopicPlace.id)))

instance [TransOrd κ] [LawfulEqOrd κ] : LawfulEqOrd (TopicPlace κ) where
  eq_of_compare {a b} h := by
    have h := compareLex_eq_eq.mp h
    have h' := compareLex_eq_eq.mp h.2
    have h₁ := LawfulEqOrd.eq_of_compare (α := Topic) h.1
    have h₂ := LawfulEqOrd.eq_of_compare (α := κ) h'.1
    have h₃ := LawfulEqOrd.eq_of_compare (α := Nat) h'.2
    cases a
    cases b
    simp_all

end

end TagCatalog
