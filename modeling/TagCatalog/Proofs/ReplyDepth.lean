import TagCatalog.Proofs.Course

/-! What the stored depth of content says of the replies above it. As long as no write gives an
address another parent, it is the length of the chain of parents, and no longer chain is stored. -/

namespace TagCatalog

/-- This many replies lead up from an address to a root. -/
inductive DepthOf (parentOf : Address → Option Address) : Address → Nat → Prop
  | root {a : Address} (h : parentOf a = none) : DepthOf parentOf a 0
  | reply {a b : Address} {depth : Nat} (h : parentOf a = some b) (hb : DepthOf parentOf b depth) :
    DepthOf parentOf a (depth + 1)

variable {parentOf : Address → Option Address}

theorem DepthOf.unique {a : Address} {i j : Nat} (hi : DepthOf parentOf a i)
    (hj : DepthOf parentOf a j) : i = j := by
  induction hi generalizing j with
  | root h =>
    cases hj with
    | root _ => rfl
    | reply h' _ => cases h.symm.trans h'
  | reply h _ ih =>
    cases hj with
    | root h' => cases h.symm.trans h'
    | reply h' hb' =>
      obtain rfl := Option.some.inj (h.symm.trans h')
      rw [ih hb']

/-- Content stands where its address says: it has the parent and the depth of the address. -/
structure Content.InPlace (parentOf : Address → Option Address) (c : Content) : Prop where
  parent?_eq : c.parent? = parentOf c.address
  depth : DepthOf parentOf c.address c.depth

theorem Content.InPlace.of_unanswered {c c' : Content} (h : c.InPlace parentOf)
    (hc : c'.unanswered = c.unanswered) : c'.InPlace parentOf := by
  have hh : c.unanswered.InPlace parentOf := ⟨h.parent?_eq, h.depth⟩
  rw [← hc] at hh
  exact ⟨hh.parent?_eq, hh.depth⟩

namespace Ledger

def InPlace (parentOf : Address → Option Address) (l : Ledger) : Prop :=
  ∀ id c, l.byId? id = some c → c.InPlace parentOf

variable {l l' : Ledger} {id : Nat}

theorem InPlace.of_changed (h : l.InPlace parentOf) (hl : Changed id l l')
    (hid : ∀ c, l'.byId? id = some c → c.InPlace parentOf) : l'.InPlace parentOf := by
  intro j c hc
  by_cases hj : j = id
  · subst hj
    exact hid c hc
  · obtain ⟨b, hb, hbc⟩ := Content.exists_of_map_unanswered (hl.others j hj) hc
    exact (h j b hb).of_unanswered hbc.symm

/-- Content that keeps its parent, its address and its depth stays in place. -/
theorem InPlace.rewrite (h : l.InPlace parentOf) (hl : l.Coherent) {a : Address} {c c' : Content}
    (hc : l.at? a = some c) (hchanged : Changed c.id l l') (hnew : l'.byId? c.id = some c')
    (hparent : c'.parent? = c.parent?) (haddress : c'.address = c.address)
    (hdepth : c'.depth = c.depth) : l'.InPlace parentOf := by
  have hstored := h _ _ (hl.at?_eq_some.mp hc).1
  refine h.of_changed hchanged fun b hb => ?_
  obtain rfl := Option.some.inj (hnew.symm.trans hb)
  refine ⟨?_, ?_⟩
  · rw [hparent, haddress]
    exact hstored.parent?_eq
  · rw [hdepth, haddress]
    exact hstored.depth

theorem InPlace.slot (h : l.InPlace parentOf) (hl : l.Coherent) {c : Content} {depth : Nat}
    (hparent : c.parent? = parentOf c.address) (hslot : Slot l c id depth) :
    DepthOf parentOf c.address depth := by
  cases hslot with
  | edit stored hstored =>
    obtain ⟨hid, ha⟩ := hl.at?_eq_some.mp hstored
    exact ha ▸ (h _ _ hid).depth
  | root _ hroot => exact .root (hparent.symm.trans hroot)
  | reply _ hreply hp =>
    obtain ⟨hid, ha⟩ := hl.at?_eq_some.mp hp
    exact .reply (hparent.symm.trans hreply) (ha ▸ (h _ _ hid).depth)

end Ledger

/-- A history whose writes all agree on the parent of an address. -/
inductive Steady (parentOf : Address → Option Address) : Node → Prop
  | start : Steady parentOf {}
  | move {s : Settings} {n n' : Node} {m : Move} {returned : Bool} (h : Steady parentOf n)
    (hm : Node.Moves s m n returned n')
    (hparent : ∀ c, m = .upsert c → returned = true → c.parent? = parentOf c.address) :
    Steady parentOf n'
  | edit {n n' : Node} {a : Address} {f : Content → Content} (h : Steady parentOf n)
    (he : Node.Edits a f n n') (hparent : ∀ c, (f c).parent? = c.parent?)
    (hdepth : ∀ c, (f c).depth = c.depth) : Steady parentOf n'

variable {s : Settings} {n n' : Node} {m : Move} {returned : Bool}

theorem Node.Moves.inPlace (hl : n.ledger.Coherent) (h : n.ledger.InPlace parentOf)
    (hm : Moves s m n returned n')
    (hparent : ∀ c, m = .upsert c → returned = true → c.parent? = parentOf c.address) :
    n'.ledger.InPlace parentOf := by
  cases returned with
  | false =>
    rw [hm.ledger_eq_of_failed hl]
    exact h
  | true =>
    cases m with
    | upsert c =>
      obtain ⟨id, hchanged, children, depth, hnew, hslot⟩ := hm.upserted hl
      refine h.of_changed hchanged fun b hb => ?_
      obtain rfl := Option.some.inj (hnew.symm.trans hb)
      have hdepth := h.slot hl (hparent c rfl rfl) hslot
      exact ⟨hparent c rfl rfl, hdepth⟩
    | remove a =>
      obtain ⟨c, -, hgone, hchanged⟩ := hm.removed hl
      refine h.of_changed hchanged fun b hb => ?_
      cases hgone.symm.trans hb
    | applyVote a rshares votes =>
      obtain ⟨c, hc, hchanged, netRshares, netVotes, hnew⟩ := hm.voted hl
      exact h.rewrite hl hc hchanged hnew rfl rfl rfl
    | setCashout a cashout =>
      obtain ⟨c, hc, hnew, hchanged⟩ := hm.moved hl
      exact h.rewrite hl hc hchanged hnew rfl rfl rfl
    | closePayout a =>
      obtain ⟨c, hc, hnew, hchanged⟩ := hm.closed hl
      exact h.rewrite hl hc hchanged hnew rfl rfl rfl
    | apply op =>
      rw [hm.ledger_eq]
      exact h

theorem Node.Edits.inPlace {a : Address} {f : Content → Content} (hl : n.ledger.Coherent)
    (h : n.ledger.InPlace parentOf) (he : Edits a f n n')
    (hparent : ∀ c, (f c).parent? = c.parent?) (hdepth : ∀ c, (f c).depth = c.depth) :
    n'.ledger.InPlace parentOf := by
  rcases he.changed hl with hsame | ⟨c, hc, hnew, hchanged⟩
  · rw [hsame]
    exact h
  · exact h.rewrite hl hc hchanged hnew (hparent c) (he.address_eq c) (hdepth c)

theorem Steady.inPlace (h : Steady parentOf n) :
    n.ledger.Coherent ∧ n.ledger.InPlace parentOf := by
  induction h with
  | start => exact ⟨Ledger.Coherent.empty, by simp [Ledger.InPlace, Ledger.empty, Ledger.byId?]⟩
  | move _ hm hparent ih =>
    obtain ⟨hl, hplace⟩ := ih
    exact ⟨(hm.follows hl).coherent, hm.inPlace hl hplace hparent⟩
  | edit _ he hparent hdepth ih =>
    obtain ⟨hl, hplace⟩ := ih
    exact ⟨(he.follows hl).coherent, he.inPlace hl hplace hparent hdepth⟩

/-- This many parents above content are there, one above the other. -/
def ContentSource.Links (source : ContentSource) : Nat → Content → Prop
  | 0, _ => True
  | k + 1, c => ∃ p, source.parent? c = some p ∧ Links source k p

theorem Ledger.InPlace.links_le {l : Ledger} (h : l.InPlace parentOf) (hl : l.Coherent) {k : Nat}
    {c : Content} (hc : l.byId? c.id = some c) (hlinks : l.source.Links k c) : k ≤ c.depth := by
  induction k generalizing c with
  | zero => exact Nat.zero_le _
  | succ k ih =>
    obtain ⟨p, hp, hup⟩ := hlinks
    obtain ⟨b, hb, hat⟩ := Option.bind_eq_some_iff.mp hp
    obtain ⟨hid, ha⟩ := hl.at?_eq_some.mp hat
    have hk := ih hid hup
    have hparent : parentOf c.address = some b := (h _ _ hc).parent?_eq.symm.trans hb
    -- The depth of the parent is one less, since an address has only one depth.
    cases hdepth : c.depth with
    | zero =>
      have hroot := (h _ _ hc).depth
      rw [hdepth] at hroot
      cases hroot with
      | root hnone => cases hnone.symm.trans hparent
    | succ depth =>
      have hreply := (h _ _ hc).depth
      rw [hdepth] at hreply
      cases hreply with
      | reply hsome hbelow =>
        obtain rfl := Option.some.inj (hparent.symm.trans hsome)
        have hsame := DepthOf.unique (ha ▸ (h _ _ hid).depth) hbelow
        omega

end TagCatalog
