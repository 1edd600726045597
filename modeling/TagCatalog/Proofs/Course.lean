import TagCatalog.Proofs.History

/-! Histories whose settings may be others from move to move and whose ledger may be written to in
place. Names and authors hold along them all the same, and an id that was given is not given again. -/

namespace TagCatalog

/-- Content is changed in place and keeps its id and its address, whatever else is written. -/
structure Node.Edits (a : Address) (f : Content → Content) (n n' : Node) : Prop where
  id_eq : ∀ c, (f c).id = c.id
  address_eq : ∀ c, (f c).address = c.address
  after_eq : Update.after? (Ledger.change a f) n.ledger = some n'.ledger
  catalog_eq : n'.catalog = n.catalog

inductive Course : Node → Filed → Prop
  | start : Course {} {}
  | move {s : Settings} {n n' : Node} {F : Filed} {m : Move} {returned : Bool} (h : Course n F)
    (hm : Node.Moves s m n returned n') : Course n' (F.after s n.ledger n'.ledger returned m)
  | edit {n n' : Node} {F : Filed} {a : Address} {f : Content → Content} (h : Course n F)
    (he : Node.Edits a f n n') : Course n' (F.reread n'.ledger)

variable {s : Settings} {n n' : Node} {F : Filed}

theorem Node.Edits.changed {a : Address} {f : Content → Content} (hl : n.ledger.Coherent)
    (he : Node.Edits a f n n') : n'.ledger = n.ledger ∨ ∃ c, n.ledger.at? a = some c ∧
      n'.ledger.byId? c.id = some (f c) ∧ Ledger.Changed c.id n.ledger n'.ledger := by
  refine Update.Yields.of_after? (P := fun l => l = n.ledger ∨ ∃ c, n.ledger.at? a = some c ∧
    l.byId? c.id = some (f c) ∧ Ledger.Changed c.id n.ledger l) ?_ he.after_eq
  exact (Ledger.yields_change hl a he.id_eq he.address_eq).mono (fun _ _ hh => .inr hh)
    fun _ _ hh => .inl hh

theorem Node.Edits.follows {a : Address} {f : Content → Content} (hl : n.ledger.Coherent)
    (he : Node.Edits a f n n') : n.ledger.Follows n'.ledger := by
  rcases he.changed hl with hsame | ⟨c, -, -, hchanged⟩
  · rw [hsame]
    exact .refl hl
  · exact hchanged.follows

theorem Course.holds (h : Course n F) : F.Holds n := by
  induction h with
  | start => exact Filed.Holds.start
  | move _ hm ih => exact ih.move hm
  | edit _ he ih => exact ih.reread (he.follows ih.ledger) he.catalog_eq

theorem History.course (h : History s n F) : Course n F := by
  induction h with
  | start => exact .start
  | move _ hm ih => exact ih.move hm

/-- A call leads from one node to the other, whether it returns or reports a fault. -/
inductive Node.Leads (n n' : Node) : Prop
  | move {s : Settings} {m : Move} {returned : Bool} (hm : Moves s m n returned n')
  | edit {a : Address} {f : Content → Content} (he : Edits a f n n')

abbrev Node.Later : Node → Node → Prop := Relation.ReflTransGen Leads

theorem Course.later (h : Course n F) (hl : n.Later n') :
    ∃ F', Course n' F' ∧ n.ledger.nextId ≤ n'.ledger.nextId := by
  induction hl with
  | refl => exact ⟨F, h, Nat.le_refl _⟩
  | tail _ hlead ih =>
    obtain ⟨F', hcourse, hle⟩ := ih
    cases hlead with
    | move hm =>
      have hnext := (hm.follows hcourse.holds.ledger).nextId_le
      exact ⟨_, hcourse.move hm, hle.trans hnext⟩
    | edit he =>
      have hnext := (he.follows hcourse.holds.ledger).nextId_le
      exact ⟨_, hcourse.edit he, hle.trans hnext⟩

theorem Filed.Holds.entriesOfContent_nextId (h : F.Holds n) :
    n.catalog.entriesOfContent n.ledger.nextId = [] := by
  rw [List.eq_nil_iff_forall_not_mem]
  intro e he
  obtain ⟨⟨id, hid⟩, hcontent⟩ := (Catalog.mem_entriesOfContent h.catalog).mp he
  have howner := h.names.owner e.content e.author e.topic ⟨id, e, hid, rfl, rfl, rfl⟩
  have hlt := h.lt_nextId e.content e.author howner
  omega

/-- Content that is written where there is none gets an id that was never given, and finds no
entries under it. -/
theorem Filed.Holds.upsert_new (h : F.Holds n) {c : Content} {id : Nat} {l : Ledger}
    (hnone : n.ledger.at? c.address = none) (hc : Ledger.upsert c n.ledger = .ok id l) :
    id = n.ledger.nextId ∧ n.catalog.entriesOfContent id = [] := by
  obtain ⟨-, children, depth, -, hslot⟩ := (Ledger.yields_upsert h.ledger c).of_ok hc
  have hid : id = n.ledger.nextId := by
    cases hslot with
    | edit stored hstored =>
      rw [hnone] at hstored
      cases hstored
    | root _ _ => rfl
    | reply _ _ _ => rfl
  refine ⟨hid, ?_⟩
  rw [hid]
  exact h.entriesOfContent_nextId

end TagCatalog
