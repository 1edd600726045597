import TagCatalog.Ledger
import TagCatalog.Proofs.EntryTable

/-! A ledger whose ids by address and content by id tell the same. Its calls keep it so, give no id
twice, and leave all content but one as it is, save for the number of replies. -/

namespace TagCatalog

def Content.unanswered (c : Content) : Content := { c with children := 0 }

theorem Content.exists_of_map_unanswered {o o' : Option Content} {c : Content}
    (h : o.map unanswered = o'.map unanswered) (hc : o = some c) :
    ∃ b, o' = some b ∧ b.unanswered = c.unanswered := by
  rw [hc, Option.map_some] at h
  exact Option.map_eq_some_iff.mp h.symm

theorem Content.eq_none_of_map_unanswered {o o' : Option Content}
    (h : o.map unanswered = o'.map unanswered) (hc : o = none) : o' = none := by
  rw [hc, Option.map_none] at h
  exact Option.map_eq_none_iff.mp h.symm

namespace Ledger

structure Coherent (l : Ledger) : Prop where
  filed : ∀ (a : Address) (id : Nat), l.ids[a]? = some id ↔
    ∃ c, l.byId? id = some c ∧ c.address = a
  id_eq : ∀ id c, l.byId? id = some c → c.id = id
  lt_nextId : ∀ id c, l.byId? id = some c → id < l.nextId

theorem Coherent.empty : Coherent .empty := by
  constructor <;> simp [Ledger.empty, byId?]

theorem byId?_put (l : Ledger) (id j : Nat) (c : Content) :
    (l.put id c).byId? j = if id = j then some c else l.byId? j := by
  simp only [byId?, put, getElem?_insert_eq]

variable {l l' l'' : Ledger} {id : Nat} {c c' : Content}

theorem Coherent.at?_eq_some (h : l.Coherent) {a : Address} :
    l.at? a = some c ↔ l.byId? c.id = some c ∧ c.address = a := by
  simp only [at?, Option.bind_eq_some_iff, h.filed]
  constructor
  · intro hh
    obtain ⟨id, ⟨b, hb, ha⟩, hc⟩ := hh
    obtain rfl := Option.some.inj (hb.symm.trans hc)
    exact ⟨(h.id_eq id b hb).symm ▸ hb, ha⟩
  · intro hh
    obtain ⟨hc, ha⟩ := hh
    exact ⟨c.id, ⟨c, hc, ha⟩, hc⟩

theorem Coherent.id_eq_of_address (h : l.Coherent) {j : Nat} (hc : l.byId? id = some c)
    (hc' : l.byId? j = some c') (ha : c.address = c'.address) : id = j := by
  have hi := (h.filed c.address id).mpr ⟨c, hc, rfl⟩
  have hj := (h.filed c.address j).mpr ⟨c', hc', ha.symm⟩
  exact Option.some.inj (hi.symm.trans hj)

theorem Coherent.nodup_ids (h : l.Coherent) : (l.toList.map (·.id)).Nodup := by
  refine nodup_map_values ?_
  intro i j b b' hb hb' hid
  exact (h.id_eq i b hb).symm.trans (hid.trans (h.id_eq j b' hb'))

theorem Coherent.put (h : l.Coherent) (hc : l.byId? id = some c) (hid : c'.id = id)
    (ha : c'.address = c.address) : (l.put id c').Coherent := by
  refine ⟨fun a j => ?_, fun j b hb => ?_, fun j b hb => ?_⟩
  · refine (h.filed a j).trans ?_
    rw [byId?_put]
    by_cases hj : id = j
    · subst hj
      simp [hc, ha]
    · simp [hj]
  · rw [byId?_put] at hb
    split at hb
    · rename_i hj
      rw [← Option.some.inj hb, hid, hj]
    · exact h.id_eq j b hb
  · rw [byId?_put] at hb
    split at hb
    · rename_i hj
      exact hj ▸ h.lt_nextId id c hc
    · exact h.lt_nextId j b hb

/-- Nothing but numbers of replies has changed. -/
structure Recounted (l l' : Ledger) : Prop where
  coherent : l'.Coherent
  ids_eq : l'.ids = l.ids
  nextId_eq : l'.nextId = l.nextId
  contents : ∀ j, (l'.byId? j).map Content.unanswered = (l.byId? j).map Content.unanswered

theorem Recounted.refl (h : l.Coherent) : Recounted l l := ⟨h, rfl, rfl, fun _ => rfl⟩

theorem Recounted.put (h : l.Coherent) (hc : l.byId? id = some c) (children : Nat) :
    Recounted l (l.put id { c with children }) := by
  have hid : c.id = id := h.id_eq id c hc
  refine ⟨h.put hc hid rfl, rfl, rfl, fun j => ?_⟩
  rw [byId?_put]
  by_cases hj : id = j
  · subst hj
    simp [hc, Content.unanswered]
  · rw [if_neg hj]

theorem recounted_dropReply (h : l.Coherent) (a : Address) : Recounted l (l.dropReply a) := by
  unfold dropReply
  split
  · exact .refl h
  · split
    · exact .refl h
    · rename_i hp
      exact .put h hp _

theorem yields_addReply {parent : Nat} {p : Content} (hp : l.byId? parent = some p)
    {failed : Fault → Ledger → Prop} :
    Update.Yields (addReply parent) l
      (fun depth l' => depth = p.depth + 1 ∧ l' = l.put parent { p with children := p.children + 1 })
      failed := by
  simp only [addReply, Update.yields_bind, Update.yields_get, hp, Update.yields_sum,
    Update.yields_modify]
  exact fun _ _ => ⟨trivial, trivial⟩

/-- Content has changed under one id; what was there before and what is there now are of one
author, and an id that was free was never given before. -/
structure Changed (id : Nat) (l l' : Ledger) : Prop where
  coherent : l'.Coherent
  nextId_le : l.nextId ≤ l'.nextId
  others : ∀ j, j ≠ id → (l'.byId? j).map Content.unanswered = (l.byId? j).map Content.unanswered
  author : ∀ c c', l.byId? id = some c → l'.byId? id = some c' → c'.author = c.author
  fresh : ∀ c', l.byId? id = none → l'.byId? id = some c' → l.nextId ≤ id

theorem Changed.put (h : l.Coherent) (hc : l.byId? id = some c) (hid : c'.id = id)
    (ha : c'.address = c.address) : Changed id l (l.put id c') where
  coherent := h.put hc hid ha
  nextId_le := Nat.le_refl _
  others j hj := by rw [byId?_put, if_neg (Ne.symm hj)]
  author b b' hb hb' := by
    rw [byId?_put, if_pos rfl] at hb'
    obtain rfl := Option.some.inj hb'
    obtain rfl := Option.some.inj (hc.symm.trans hb)
    exact congrArg Address.author ha
  fresh b' hb _ := by simp [hc] at hb

theorem Changed.recounted (h : Changed id l l') (h' : Recounted l' l'') : Changed id l l'' where
  coherent := h'.coherent
  nextId_le := h'.nextId_eq ▸ h.nextId_le
  others j hj := (h'.contents j).trans (h.others j hj)
  author c c' hc hc' := by
    obtain ⟨b, hb, hbc⟩ := Content.exists_of_map_unanswered (h'.contents id) hc'
    exact (congrArg Content.author hbc).symm.trans (h.author c b hc hb)
  fresh c' hc hc' := by
    obtain ⟨b, hb, -⟩ := Content.exists_of_map_unanswered (h'.contents id) hc'
    exact h.fresh b hc hb

theorem Recounted.changed (h : Recounted l l') (h' : Changed id l' l'') : Changed id l l'' where
  coherent := h'.coherent
  nextId_le := h.nextId_eq ▸ h'.nextId_le
  others j hj := (h'.others j hj).trans (h.contents j)
  author c c' hc hc' := by
    obtain ⟨b, hb, hbc⟩ := Content.exists_of_map_unanswered (h.contents id).symm hc
    have hauthor := congrArg Content.author hbc
    exact (h'.author b c' hb hc').trans hauthor
  fresh c' hc hc' := by
    have hnone := Content.eq_none_of_map_unanswered (h.contents id).symm hc
    exact h.nextId_eq ▸ h'.fresh c' hnone hc'

def withNew (l : Ledger) (c : Content) (depth : Nat) : Ledger :=
  { l.put l.nextId { c with id := l.nextId, children := 0, depth } with
    ids := l.ids.insert c.address l.nextId
    nextId := l.nextId + 1 }

theorem byId?_withNew (l : Ledger) (c : Content) (depth j : Nat) :
    (l.withNew c depth).byId? j =
      if l.nextId = j then some { c with id := l.nextId, children := 0, depth } else l.byId? j := by
  simp only [withNew, byId?, Ledger.put, getElem?_insert_eq]

theorem Coherent.byId?_nextId (h : l.Coherent) : l.byId? l.nextId = none := by
  cases hc : l.byId? l.nextId with
  | none => rfl
  | some c => exact absurd (h.lt_nextId _ c hc) (Nat.lt_irrefl _)

theorem Coherent.withNew (h : l.Coherent) (ha : l.ids[c.address]? = none) (depth : Nat) :
    (l.withNew c depth).Coherent := by
  have hnext := h.byId?_nextId
  refine ⟨fun a j => ?_, fun j b hb => ?_, fun j b hb => ?_⟩
  · have hids : (l.withNew c depth).ids[a]? = if c.address = a then some l.nextId else l.ids[a]? := by
      simp only [Ledger.withNew, getElem?_insert_eq]
    rw [hids, byId?_withNew]
    by_cases hj : l.nextId = j
    · subst hj
      by_cases hca : c.address = a
      · subst hca
        simp only [if_true, true_iff]
        exact ⟨_, rfl, rfl⟩
      · simp only [hca, if_false, if_true, h.filed, hnext]
        constructor
        · intro hh
          obtain ⟨b, hb, -⟩ := hh
          cases hb
        · intro hh
          obtain ⟨b, hb, hba⟩ := hh
          obtain rfl := Option.some.inj hb
          exact absurd hba hca
    · by_cases hca : c.address = a
      · subst hca
        have hnone := (h.filed c.address j).not.mp (by simp [ha])
        simp [hj, hnone]
      · simp only [hca, hj, if_false]
        exact h.filed a j
  · rw [byId?_withNew] at hb
    split at hb
    · rename_i hj
      rw [← Option.some.inj hb, ← hj]
    · exact h.id_eq j b hb
  · rw [byId?_withNew] at hb
    change j < l.nextId + 1
    split at hb
    · omega
    · have := h.lt_nextId j b hb
      omega

theorem Changed.withNew (h : l.Coherent) (ha : l.ids[c.address]? = none) (depth : Nat) :
    Changed l.nextId l (l.withNew c depth) where
  coherent := h.withNew ha depth
  nextId_le := Nat.le_succ _
  others j hj := by rw [byId?_withNew, if_neg (Ne.symm hj)]
  author b b' hb _ := by simp [h.byId?_nextId] at hb
  fresh _ _ _ := Nat.le_refl _

theorem yields_insertNew (c : Content) (depth : Nat) {failed : Fault → Ledger → Prop} :
    Update.Yields (insertNew c depth) l (fun id l' => id = l.nextId ∧ l' = l.withNew c depth)
      failed := by
  simp only [insertNew, Update.yields_bind, Update.yields_get, Update.yields_modify,
    Update.yields_pure]
  exact ⟨trivial, rfl⟩

theorem idOf_cases (h : l.Coherent) (a : Address) :
    l.ids[a]? = none ∧ l.at? a = none ∨ ∃ c, l.ids[a]? = some c.id ∧ l.at? a = some c := by
  cases hid : l.ids[a]? with
  | none => exact .inl ⟨rfl, by simp [at?, hid]⟩
  | some id =>
    obtain ⟨c, hc, ha⟩ := (h.filed a id).mp hid
    have hcid := h.id_eq id c hc
    exact .inr ⟨c, by rw [hcid], by simp [at?, hid, hc]⟩

theorem Coherent.ids_eq_none (h : l.Coherent) {a : Address} (hnone : l.at? a = none) :
    l.ids[a]? = none := by
  rcases idOf_cases h a with ⟨hids, -⟩ | ⟨c, -, hc⟩
  · exact hids
  · cases hnone.symm.trans hc

/-- The id and the depth that written content gets: those it had, or the next id and one more than
what it replies to. -/
inductive Slot (l : Ledger) (c : Content) : Nat → Nat → Prop
  | edit (stored : Content) (h : l.at? c.address = some stored) : Slot l c stored.id stored.depth
  | root (h : l.at? c.address = none) (hparent : c.parent? = none) : Slot l c l.nextId 0
  | reply (h : l.at? c.address = none) {a : Address} (hparent : c.parent? = some a) {p : Content}
    (hp : l.at? a = some p) : Slot l c l.nextId (p.depth + 1)

/-- The id of written content and the ledger with it: an edit keeps id, number of replies and depth,
and what is new is filed under the next id, a reply counted at its parent. -/
inductive Upserted (l : Ledger) (c : Content) : Nat → Ledger → Prop
  | edit (stored : Content) (h : l.at? c.address = some stored) :
    Upserted l c stored.id (l.put stored.id
      { c with id := stored.id, children := stored.children, depth := stored.depth })
  | root (h : l.at? c.address = none) (hroot : c.parent? = none) :
    Upserted l c l.nextId (l.withNew c 0)
  | reply (h : l.at? c.address = none) {a : Address} (hreply : c.parent? = some a) {p : Content}
    (hp : l.at? a = some p) :
    Upserted l c l.nextId
      ((l.put p.id { p with children := p.children + 1 }).withNew c (p.depth + 1))

theorem yields_upsert_eq (h : l.Coherent) (c : Content) :
    Update.Yields (upsert c) l (fun id l' => Upserted l c id l')
      fun f l' => l' = l ∧ l.at? c.address = none ∧
        ∃ a, c.parent? = some a ∧ l.at? a = none ∧ f = .contentNotFound a := by
  simp only [upsert, Update.yields_bind, Update.yields_get]
  rcases idOf_cases h c.address with ⟨hids, hnone⟩ | ⟨stored, hids, hat⟩
  · rw [hids]
    cases hparent : c.parent? with
    | none =>
      refine (yields_insertNew c 0).imp ?_
      intro id l' hh
      obtain ⟨rfl, rfl⟩ := hh
      exact .root hnone hparent
    | some a =>
      simp only [idOf, Update.yields_bind, Update.yields_get, Update.yields_require]
      rcases idOf_cases h a with ⟨hpid, hp⟩ | ⟨p, hpid, hp⟩
      · rw [hpid]
        refine ⟨fun _ hid => ?_, fun _ => ⟨trivial, hnone, a, rfl, hp, rfl⟩⟩
        cases hid
      · obtain ⟨hstored, -⟩ := h.at?_eq_some.mp hp
        rw [hpid]
        simp only [Option.some.injEq, forall_eq', reduceCtorEq, false_implies, and_true]
        refine (yields_addReply hstored).imp ?_
        intro depth _ hh
        obtain ⟨rfl, rfl⟩ := hh
        refine (yields_insertNew c (p.depth + 1)).imp ?_
        intro id l' hh
        obtain ⟨rfl, rfl⟩ := hh
        exact .reply hnone hparent hp
  · obtain ⟨hstored, -⟩ := h.at?_eq_some.mp hat
    rw [hids]
    simp only [Update.yields_bind, Update.yields_modify, Update.yields_pure, hstored]
    exact .edit stored hat

theorem Upserted.changed (h : l.Coherent) (hl : Upserted l c id l') :
    Changed id l l' ∧ ∃ children depth,
      l'.byId? id = some { c with id, children, depth } ∧ Slot l c id depth := by
  cases hl with
  | edit stored hat =>
    obtain ⟨hstored, ha⟩ := h.at?_eq_some.mp hat
    refine ⟨.put h hstored rfl ha.symm, stored.children, stored.depth, ?_, .edit stored hat⟩
    rw [byId?_put, if_pos rfl]
  | root hnone hroot =>
    refine ⟨.withNew h (h.ids_eq_none hnone) 0, 0, 0, ?_, .root hnone hroot⟩
    rw [byId?_withNew, if_pos rfl]
  | @reply hnone a hreply p hp =>
    have hcounted := Recounted.put h (h.at?_eq_some.mp hp).1 (p.children + 1)
    -- Counting the reply has written to its parent, but to no address.
    have hnew := Changed.withNew (c := c) hcounted.coherent (h.ids_eq_none hnone) (p.depth + 1)
    refine ⟨hcounted.changed hnew, 0, p.depth + 1, ?_, .reply hnone hreply hp⟩
    exact (byId?_withNew _ c _ _).trans (if_pos rfl)

theorem yields_upsert (h : l.Coherent) (c : Content) :
    Update.Yields (upsert c) l
      (fun id l' => Changed id l l' ∧ ∃ children depth,
        l'.byId? id = some { c with id, children, depth } ∧ Slot l c id depth)
      fun _ l' => l' = l :=
  (yields_upsert_eq h c).mono (fun _ _ hl => hl.changed h) fun _ _ hh => hh.1

def without (l : Ledger) (a : Address) (id : Nat) : Ledger :=
  { l with ids := l.ids.erase a, contents := l.contents.erase id }

theorem byId?_without (l : Ledger) (a : Address) (id j : Nat) :
    (l.without a id).byId? j = if id = j then none else l.byId? j := by
  simp only [without, byId?, getElem?_erase_eq]

theorem Coherent.without (h : l.Coherent) (hc : l.byId? id = some c) :
    (l.without c.address id).Coherent := by
  refine ⟨fun a j => ?_, fun j b hb => ?_, fun j b hb => ?_⟩
  · have hids : (l.without c.address id).ids[a]? =
        if c.address = a then none else l.ids[a]? := by
      simp only [Ledger.without, getElem?_erase_eq]
    rw [hids, byId?_without]
    by_cases hj : id = j
    · subst hj
      have hne (ha : c.address ≠ a) : l.ids[a]? ≠ some id := by
        intro hids
        obtain ⟨b, hb, hba⟩ := (h.filed a id).mp hids
        obtain rfl := Option.some.inj (hc.symm.trans hb)
        exact ha hba
      by_cases ha : c.address = a
      · simp [ha]
      · simp [ha, hne ha]
    · by_cases ha : c.address = a
      · subst ha
        have hne : ∀ b, l.byId? j = some b → b.address ≠ c.address :=
          fun b hb hba => hj (h.id_eq_of_address hc hb hba.symm)
        simpa [hj] using hne
      · simp only [ha, hj, if_false]
        exact h.filed a j
  · rw [byId?_without] at hb
    split at hb
    · cases hb
    · exact h.id_eq j b hb
  · rw [byId?_without] at hb
    split at hb
    · cases hb
    · exact h.lt_nextId j b hb

theorem Changed.without (h : l.Coherent) (hc : l.byId? id = some c) :
    Changed id l (l.without c.address id) where
  coherent := h.without hc
  nextId_le := Nat.le_refl _
  others j hj := by rw [byId?_without, if_neg (Ne.symm hj)]
  author b b' _ hb' := by simp [byId?_without] at hb'
  fresh b' _ hb' := by simp [byId?_without] at hb'

/-- The ledger without content that it has, and with a reply less at what that replied to. -/
def cleared (l : Ledger) (c : Content) : Ledger :=
  c.parent?.elim (l.without c.address c.id) (l.without c.address c.id).dropReply

theorem recounted_cleared (h : l.Coherent) (hc : l.byId? c.id = some c) :
    Recounted (l.without c.address c.id) (l.cleared c) := by
  have hgone := h.without hc
  unfold cleared
  cases c.parent? with
  | none => exact .refl hgone
  | some parent => exact recounted_dropReply hgone parent

theorem yields_remove_eq (h : l.Coherent) (a : Address) :
    Update.Yields (remove a) l (fun c l' => l.at? a = some c ∧ l' = l.cleared c)
      fun f l' => l' = l ∧ l.at? a = none ∧ f = .contentNotFound a := by
  simp only [remove, idOf, Update.yields_bind, Update.yields_get, Update.yields_require,
    Update.yields_modify]
  rcases idOf_cases h a with ⟨hids, hnone⟩ | ⟨c, hids, hat⟩
  · simp [hids, hnone]
  obtain ⟨hc, rfl⟩ := h.at?_eq_some.mp hat
  have hread : ({ l with ids := l.ids.erase c.address } : Ledger).byId? c.id = some c := hc
  simp only [hids, hread, Option.some.injEq, forall_eq', reduceCtorEq, false_implies, and_true]
  cases hparent : c.parent? with
  | none => exact ⟨hat, by rw [cleared, hparent]; rfl⟩
  | some parent =>
    simp only [Update.yields_bind, Update.yields_modify, Update.yields_pure]
    exact ⟨hat, by rw [cleared, hparent]; rfl⟩

theorem yields_remove (h : l.Coherent) (a : Address) :
    Update.Yields (remove a) l
      (fun c l' => l.at? a = some c ∧ l'.byId? c.id = none ∧ Changed c.id l l')
      fun _ l' => l' = l ∧ l.at? a = none := by
  refine (yields_remove_eq h a).mono ?_ fun _ _ hh => ⟨hh.1, hh.2.1⟩
  intro c l' hh
  obtain ⟨hat, rfl⟩ := hh
  have hc := (h.at?_eq_some.mp hat).1
  have hcounted := recounted_cleared h hc
  have hnone : (l.without c.address c.id).byId? c.id = none := by
    rw [byId?_without, if_pos rfl]
  exact ⟨hat, Content.eq_none_of_map_unanswered (hcounted.contents c.id).symm hnone,
    (Changed.without h hc).recounted hcounted⟩

theorem yields_locate (h : l.Coherent) (a : Address) :
    Update.Yields (locate a) l
      (fun p l' => l' = l ∧ ∃ c, p = (c.id, c) ∧ l.at? a = some c)
      fun f l' => l' = l ∧ l.at? a = none ∧ f = .contentNotFound a := by
  simp only [locate, idOf, Update.yields_bind, Update.yields_get, Update.yields_require,
    Update.yields_pure]
  rcases idOf_cases h a with ⟨hids, hnone⟩ | ⟨c, hids, hat⟩
  · simp [hids, hnone]
  · have hc := (h.at?_eq_some.mp hat).1
    simp [hids, hc, hat]

theorem yields_change_eq (h : l.Coherent) (a : Address) (f : Content → Content) :
    Update.Yields (change a f) l (fun _ l' => ∃ c, l.at? a = some c ∧ l' = l.put c.id (f c))
      fun f l' => l' = l ∧ l.at? a = none ∧ f = .contentNotFound a := by
  simp only [change, Update.yields_bind]
  refine (yields_locate h a).imp ?_
  intro _ _ hh
  obtain ⟨rfl, c, rfl, hat⟩ := hh
  rw [Update.yields_modify]
  exact ⟨c, hat, rfl⟩

theorem yields_change (h : l.Coherent) (a : Address) {f : Content → Content}
    (hid : ∀ c, (f c).id = c.id) (ha : ∀ c, (f c).address = c.address) :
    Update.Yields (change a f) l
      (fun _ l' => ∃ c, l.at? a = some c ∧ l'.byId? c.id = some (f c) ∧ Changed c.id l l')
      fun _ l' => l' = l := by
  refine (yields_change_eq h a f).mono ?_ fun _ _ hh => hh.1
  intro _ _ hh
  obtain ⟨c, hat, rfl⟩ := hh
  have hc := (h.at?_eq_some.mp hat).1
  exact ⟨c, hat, by rw [byId?_put, if_pos rfl], .put h hc (hid c) (ha c)⟩

theorem yields_setCashout (h : l.Coherent) (a : Address) (cashout : Option Instant) :
    Update.Yields (setCashout a cashout) l
      (fun _ l' => ∃ c, l.at? a = some c ∧ l'.byId? c.id = some { c with cashoutTime := cashout } ∧
        Changed c.id l l')
      fun _ l' => l' = l :=
  yields_change h a (fun _ => rfl) fun _ => rfl

theorem put_put (l : Ledger) (id : Nat) (c c' : Content) :
    (l.put id c).put id c' = l.put id c' := by
  simp only [put, mk.injEq, and_true]
  apply Std.ExtTreeMap.ext_getElem?
  intro j
  simp only [getElem?_insert_eq]
  split <;> rfl

theorem yields_applyVote_eq (h : l.Coherent) (a : Address) (rshares : Int64) (votes : Int32) :
    Update.Yields (applyVote a rshares votes) l
      (fun _ l' => ∃ c netRshares netVotes, l.at? a = some c ∧
        l' = l.put c.id { c with netRshares, netVotes })
      fun f l' => l' = l ∧ l.at? a = none ∧ f = .contentNotFound a := by
  simp only [applyVote, Update.yields_bind]
  refine (yields_locate h a).imp ?_
  intro _ _ hh
  obtain ⟨rfl, c, rfl, hat⟩ := hh
  simp only [Update.yields_fits, Update.yields_modify, put_put]
  intro _ _
  exact ⟨c, _, _, hat, rfl⟩

theorem yields_applyVote (h : l.Coherent) (a : Address) (rshares : Int64) (votes : Int32) :
    Update.Yields (applyVote a rshares votes) l
      (fun _ l' => ∃ c, l.at? a = some c ∧ Changed c.id l l' ∧
        ∃ netRshares netVotes, l'.byId? c.id = some { c with netRshares, netVotes })
      fun _ l' => l' = l := by
  refine (yields_applyVote_eq h a rshares votes).mono ?_ fun _ _ hh => hh.1
  intro _ _ hh
  obtain ⟨c, netRshares, netVotes, hat, rfl⟩ := hh
  have hc := (h.at?_eq_some.mp hat).1
  exact ⟨c, hat, .put h hc rfl rfl, netRshares, netVotes, by rw [byId?_put, if_pos rfl]⟩

end Ledger

end TagCatalog
