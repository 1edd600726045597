import TagCatalog.Name

/-! What content is filed under: a free-form tag or a language. Tags come before languages, and
names follow in the order of their code points. -/

namespace TagCatalog

inductive TopicKind
  | tag
  | language
  deriving DecidableEq, Repr

namespace TopicKind

def name : TopicKind → String
  | .tag => "tag"
  | .language => "language"

def ofName? (s : String) : Option TopicKind :=
  match lowercase s with
  | "tag" => some .tag
  | "language" | "lang" => some .language
  | _ => none

def index : TopicKind → Nat
  | .tag => 0
  | .language => 1

theorem index_injective {a b : TopicKind} (h : a.index = b.index) : a = b := by
  cases a <;> cases b <;> simp_all [index]

end TopicKind

structure Topic where
  kind : TopicKind
  name : String
  deriving DecidableEq, Repr

namespace Topic

def tag (name : String) : Topic := ⟨.tag, name⟩

def language (name : String) : Topic := ⟨.language, name⟩

instance : Ord Topic where
  compare := compareLex (compareOn (·.kind.index)) (compareOn (·.name))

instance : Std.TransOrd Topic :=
  inferInstanceAs <| Std.TransCmp
    (compareLex (compareOn fun t : Topic => t.kind.index) (compareOn Topic.name))

instance : Std.LawfulEqOrd Topic where
  eq_of_compare {a b} h := by
    have h := compareLex_eq_eq.mp h
    have hk := TopicKind.index_injective (Std.LawfulEqOrd.eq_of_compare (α := Nat) h.1)
    have hn := Std.LawfulEqOrd.eq_of_compare (α := String) h.2
    cases a
    cases b
    simp_all

/-- Kind and quoted name. -/
def describe (t : Topic) : String := t.kind.name ++ " '" ++ t.name ++ "'"

end Topic

end TagCatalog
