import TagCatalog.Proofs.Ledger

/-! Ledgers after calls in a row. Content is found by its address and by its id alike, an address
keeps its id until it is removed, and the ids given out are one, two, three and so on. -/

namespace TagCatalog

namespace Ledger

inductive Call
  | upsert (c : Content)
  | remove (a : Address)
  | applyVote (a : Address) (rshares : Int64) (votes : Int32)
  | setCashout (a : Address) (cashout : Option Instant)
  | closePayout (a : Address)

namespace Call

/-- The addresses that a call gives an id they did not have, each with the id. -/
def run : Call → Update Ledger (List (Address × Nat))
  | .upsert c => do
    let known := (← get).ids.contains c.address
    let id ← Ledger.upsert c
    return if known then [] else [(c.address, id)]
  | .remove a => do
    let _ ← Ledger.remove a
    return []
  | .applyVote a rshares votes => do
    Ledger.applyVote a rshares votes
    return []
  | .setCashout a cashout => do
    Ledger.setCashout a cashout
    return []
  | .closePayout a => do
    Ledger.closePayout a
    return []

/-- The address that has to have content for a call to return. New content needs what it replies to. -/
def needed? (l : Ledger) : Call → Option Address
  | .upsert c => if (l.at? c.address).isSome then none else c.parent?
  | .remove a | .applyVote a .. | .setCashout a _ | .closePayout a => some a

def revised? : Call → Option Address
  | .upsert _ | .remove _ => none
  | .applyVote a .. | .setCashout a _ | .closePayout a => some a

end Call

/-- What a call that returns writes, and the ids it gives. -/
inductive Writes (l : Ledger) : Call → List (Address × Nat) → Ledger → Prop
  | upsert {c : Content} {id : Nat} {l' : Ledger} (h : Upserted l c id l') :
    Writes l (.upsert c) (if (l.at? c.address).isSome then [] else [(c.address, id)]) l'
  | remove {a : Address} {c : Content} (h : l.at? a = some c) :
    Writes l (.remove a) [] (l.cleared c)
  | revise {call : Call} {a : Address} {c : Content} {netRshares : Int64} {netVotes : Int32}
    {cashoutTime : Option Instant} (hcall : call.revised? = some a) (h : l.at? a = some c) :
    Writes l call [] (l.put c.id { c with netRshares, netVotes, cashoutTime })

variable {l l' : Ledger} {call : Call} {given : List (Address × Nat)}

theorem Coherent.contains_ids (h : l.Coherent) (a : Address) :
    l.ids.contains a = (l.at? a).isSome := by
  rw [Std.ExtTreeMap.contains_eq_isSome_getElem?]
  rcases idOf_cases h a with ⟨hids, hat⟩ | ⟨c, hids, hat⟩
  · rw [hids, hat]
    rfl
  · rw [hids, hat]
    rfl

theorem Call.yields_run (h : l.Coherent) (call : Call) :
    Update.Yields call.run l (fun given l' => Writes l call given l')
      fun f l' => l' = l ∧ ∃ a, call.needed? l = some a ∧ l.at? a = none ∧
        f = .contentNotFound a := by
  cases call with
  | upsert c =>
    simp only [run, Update.yields_bind, Update.yields_get, Update.yields_pure, h.contains_ids]
    refine (yields_upsert_eq h c).mono (fun _ _ hh => .upsert hh) ?_
    intro f l' hh
    obtain ⟨rfl, hnone, hmissing⟩ := hh
    exact ⟨rfl, by simpa [needed?, hnone] using hmissing⟩
  | remove a =>
    simp only [run, Update.yields_bind, Update.yields_pure]
    refine (yields_remove_eq h a).mono ?_ fun _ _ hh => ⟨hh.1, a, rfl, hh.2⟩
    intro c l' hh
    obtain ⟨hat, rfl⟩ := hh
    exact .remove hat
  | applyVote a rshares votes =>
    simp only [run, Update.yields_bind, Update.yields_pure]
    refine (yields_applyVote_eq h a rshares votes).mono ?_ fun _ _ hh => ⟨hh.1, a, rfl, hh.2⟩
    intro _ l' hh
    obtain ⟨c, netRshares, netVotes, hat, rfl⟩ := hh
    exact .revise rfl hat
  | setCashout a cashout =>
    simp only [run, Update.yields_bind, Update.yields_pure]
    refine (yields_change_eq h a _).mono ?_ fun _ _ hh => ⟨hh.1, a, rfl, hh.2⟩
    intro _ l' hh
    obtain ⟨c, hat, rfl⟩ := hh
    exact .revise rfl hat
  | closePayout a =>
    simp only [run, Update.yields_bind, Update.yields_pure]
    have hclosed := yields_change_eq h a fun c => { c with cashoutTime := none }
    refine hclosed.mono ?_ fun _ _ hh => ⟨hh.1, a, rfl, hh.2⟩
    intro _ l' hh
    obtain ⟨c, hat, rfl⟩ := hh
    exact .revise rfl hat

theorem Upserted.coherent (h : l.Coherent) {c : Content} {id : Nat} (hu : Upserted l c id l') :
    l'.Coherent := (hu.changed h).1.coherent

theorem Writes.coherent (h : l.Coherent) (hw : Writes l call given l') : l'.Coherent := by
  cases hw with
  | upsert hu => exact hu.coherent h
  | remove hat => exact (recounted_cleared h (h.at?_eq_some.mp hat).1).coherent
  | revise _ hat => exact h.put (h.at?_eq_some.mp hat).1 rfl rfl

/-- What a call does to the ids by address: nothing, or it takes one away, or it gives the next. -/
inductive Readdressed (l : Ledger) : Call → List (Address × Nat) → Ledger → Prop
  | kept {call : Call} {l' : Ledger} (hids : l'.ids = l.ids) (hnext : l'.nextId = l.nextId) :
    Readdressed l call [] l'
  | freed {a : Address} {l' : Ledger} (hids : l'.ids = l.ids.erase a)
    (hnext : l'.nextId = l.nextId) : Readdressed l (.remove a) [] l'
  | given {call : Call} {a : Address} {l' : Ledger} (ha : l.ids[a]? = none)
    (hids : l'.ids = l.ids.insert a l.nextId) (hnext : l'.nextId = l.nextId + 1) :
    Readdressed l call [(a, l.nextId)] l'

theorem Writes.readdressed (h : l.Coherent) (hw : Writes l call given l') :
    Readdressed l call given l' := by
  cases hw with
  | @upsert c id _ hu =>
    cases hu with
    | edit stored hat =>
      rw [hat]
      exact .kept rfl rfl
    | root hnone hroot =>
      rw [hnone]
      exact .given (h.ids_eq_none hnone) rfl rfl
    | reply hnone hreply hp =>
      rw [hnone]
      exact .given (h.ids_eq_none hnone) rfl rfl
  | @remove a c hat =>
    obtain ⟨hc, rfl⟩ := h.at?_eq_some.mp hat
    have hcounted := recounted_cleared h hc
    exact .freed hcounted.ids_eq hcounted.nextId_eq
  | revise _ hat => exact .kept rfl rfl

theorem Writes.of_remove (h : l.Coherent) {a : Address} (hw : Writes l (.remove a) given l') :
    l'.ids = l.ids.erase a ∧ l'.nextId = l.nextId := by
  cases hw with
  | remove hat =>
    obtain ⟨hc, rfl⟩ := h.at?_eq_some.mp hat
    have hcounted := recounted_cleared h hc
    exact ⟨hcounted.ids_eq, hcounted.nextId_eq⟩
  | revise hcall _ => cases hcall

/-- A ledger and the ids it has given out, in the order they were given. -/
structure Log where
  ledger : Ledger := .empty
  given : List (Address × Nat) := []

namespace Log

/-- A call returns or reports a fault, and has no outcome here if it overflows. -/
def after? (log : Log) (call : Call) : Option Log :=
  match call.run log.ledger with
  | .ok given ledger => some ⟨ledger, log.given ++ given⟩
  | .error (.fault _) ledger => some { log with ledger }
  | .error .overflow _ => none

def ofCalls? (calls : List Call) : Option Log := calls.foldlM after? {}

variable {log log' : Log}

theorem writes_of_after? (h : log.ledger.Coherent) (hlog : log.after? call = some log') :
    (log' = log ∧ ∃ a, call.needed? log.ledger = some a ∧ log.ledger.at? a = none) ∨
      ∃ given, Writes log.ledger call given log'.ledger ∧ log'.given = log.given ++ given := by
  have hrun := call.yields_run h
  unfold Update.Yields at hrun
  unfold after? at hlog
  split at hlog
  · rename_i given l hcall
    rw [hcall] at hrun
    obtain rfl := Option.some.inj hlog
    exact .inr ⟨given, hrun, rfl⟩
  · rename_i f l hcall
    rw [hcall] at hrun
    obtain rfl := Option.some.inj hlog
    obtain ⟨rfl, a, hneeded, hnone, -⟩ := hrun
    exact .inl ⟨rfl, a, hneeded, hnone⟩
  · cases hlog

/-- The ids given out are those below the next one, and each address has the one it was given. -/
structure Holds (log : Log) : Prop where
  coherent : log.ledger.Coherent
  one_le : 1 ≤ log.ledger.nextId
  given_eq : log.given.map Prod.snd = List.range' 1 (log.ledger.nextId - 1)
  mem_given : ∀ (a : Address) (id : Nat), log.ledger.ids[a]? = some id → (a, id) ∈ log.given

theorem Holds.start : Holds {} where
  coherent := Coherent.empty
  one_le := Nat.le_refl 1
  given_eq := rfl
  mem_given := by simp [Ledger.empty]

theorem Holds.readdressed (h : log.Holds) (hl : log'.ledger.Coherent)
    (hr : Readdressed log.ledger call given log'.ledger) (hgiven : log'.given = log.given ++ given) :
    log'.Holds := by
  have hone := h.one_le
  cases hr with
  | kept hids hnext =>
    rw [List.append_nil] at hgiven
    refine ⟨hl, hnext ▸ hone, ?_, ?_⟩
    · rw [hgiven, hnext]
      exact h.given_eq
    · rw [hids, hgiven]
      exact h.mem_given
  | freed hids hnext =>
    rw [List.append_nil] at hgiven
    refine ⟨hl, hnext ▸ hone, ?_, fun a id hid => ?_⟩
    · rw [hgiven, hnext]
      exact h.given_eq
    · rw [hids, getElem?_erase_eq] at hid
      split at hid
      · cases hid
      · exact hgiven ▸ h.mem_given a id hid
  | @given _ b _ hb hids hnext =>
    refine ⟨hl, by omega, ?_, fun a id hid => ?_⟩
    · have hlast : log'.ledger.nextId - 1 = (log.ledger.nextId - 1) + 1 := by omega
      have hid : log.ledger.nextId = 1 + (log.ledger.nextId - 1) := by omega
      rw [hgiven, List.map_append, h.given_eq, hlast, List.range'_1_concat, ← hid]
      rfl
    · rw [hids, getElem?_insert_eq] at hid
      rw [hgiven, List.mem_append]
      split at hid
      · rename_i hba
        obtain rfl := Option.some.inj hid
        exact .inr (by simp [hba])
      · exact .inl (h.mem_given a id hid)

theorem Holds.after? (h : log.Holds) (hlog : log.after? call = some log') : log'.Holds := by
  rcases writes_of_after? h.coherent hlog with ⟨rfl, -⟩ | ⟨given, hw, hgiven⟩
  · exact h
  · exact h.readdressed (hw.coherent h.coherent) (hw.readdressed h.coherent) hgiven

theorem Holds.foldlM {calls : List Call} (h : log.Holds)
    (hlog : calls.foldlM Log.after? log = some log') : log'.Holds :=
  foldlM_of_step (fun _ _ _ hh hstep => hh.after? hstep) h hlog

theorem holds_ofCalls? {calls : List Call} (h : ofCalls? calls = some log) : log.Holds :=
  Holds.start.foldlM h

theorem Holds.ids_after? (h : log.Holds) (hlog : log.after? call = some log') {a : Address} {id : Nat}
    (hid : log.ledger.ids[a]? = some id) (hcall : call ≠ .remove a) :
    log'.ledger.ids[a]? = some id := by
  rcases writes_of_after? h.coherent hlog with ⟨rfl, -⟩ | ⟨given, hw, -⟩
  · exact hid
  · cases hw.readdressed h.coherent with
    | kept hids _ => rw [hids, hid]
    | @freed b _ hids _ =>
      have hne : b ≠ a := fun hba => hcall (hba ▸ rfl)
      rw [hids, getElem?_erase_eq, if_neg hne, hid]
    | @given _ b _ hb hids _ =>
      have hne : b ≠ a := by
        rintro rfl
        cases hb.symm.trans hid
      rw [hids, getElem?_insert_eq, if_neg hne, hid]

/-- An id that was given out and that no address has. -/
def Spent (log : Log) (id : Nat) : Prop :=
  id < log.ledger.nextId ∧ ∀ b : Address, log.ledger.ids[b]? ≠ some id

theorem Holds.spent_of_remove (h : log.Holds) {a : Address} {id : Nat}
    (hlog : log.after? (.remove a) = some log') (hid : log.ledger.ids[a]? = some id) :
    log'.Spent id := by
  obtain ⟨c, hc, hca⟩ := (h.coherent.filed a id).mp hid
  have hat : log.ledger.at? a = some c := by
    have hcid := h.coherent.id_eq id c hc
    exact h.coherent.at?_eq_some.mpr ⟨hcid.symm ▸ hc, hca⟩
  rcases writes_of_after? h.coherent hlog with ⟨-, b, hneeded, hnone⟩ | ⟨given, hw, -⟩
  · obtain rfl := Option.some.inj hneeded
    cases hnone.symm.trans hat
  · obtain ⟨hids, hnext⟩ := hw.of_remove h.coherent
    refine ⟨hnext ▸ h.coherent.lt_nextId id c hc, fun b hb => ?_⟩
    rw [hids, getElem?_erase_eq] at hb
    split at hb
    · cases hb
    · rename_i hab
      obtain ⟨c', hc', rfl⟩ := (h.coherent.filed b id).mp hb
      obtain rfl := Option.some.inj (hc.symm.trans hc')
      exact hab hca.symm

theorem Holds.spent_after? (h : log.Holds) {id : Nat} (hspent : log.Spent id)
    (hlog : log.after? call = some log') : log'.Spent id := by
  obtain ⟨hlt, hfree⟩ := hspent
  rcases writes_of_after? h.coherent hlog with ⟨rfl, -⟩ | ⟨given, hw, -⟩
  · exact ⟨hlt, hfree⟩
  · cases hw.readdressed h.coherent with
    | kept hids hnext => exact ⟨hnext ▸ hlt, hids ▸ hfree⟩
    | freed hids hnext =>
      refine ⟨hnext ▸ hlt, fun b hb => ?_⟩
      rw [hids, getElem?_erase_eq] at hb
      split at hb
      · cases hb
      · exact hfree b hb
    | given _ hids hnext =>
      refine ⟨by omega, fun b hb => ?_⟩
      rw [hids, getElem?_insert_eq] at hb
      split at hb
      · have hnew := Option.some.inj hb
        omega
      · exact hfree b hb

theorem Holds.spent_foldlM {calls : List Call} (h : log.Holds) {id : Nat} (hspent : log.Spent id)
    (hlog : calls.foldlM Log.after? log = some log') : log'.Spent id := by
  have hstep : ∀ (log : Log) (call : Call) (log' : Log), log.Holds ∧ log.Spent id →
      log.after? call = some log' → log'.Holds ∧ log'.Spent id := by
    intro log call log' hh hafter
    exact ⟨hh.1.after? hafter, hh.1.spent_after? hh.2 hafter⟩
  exact (foldlM_of_step hstep ⟨h, hspent⟩ hlog).2

theorem Holds.ids_foldlM {calls : List Call} (h : log.Holds)
    (hlog : calls.foldlM Log.after? log = some log') {a : Address} {id : Nat}
    (hid : log.ledger.ids[a]? = some id) (b : Address) :
    log'.ledger.ids[b]? = some id ↔ b = a ∧ .remove a ∉ calls := by
  induction calls generalizing log with
  | nil =>
    obtain rfl := Option.some.inj hlog
    obtain ⟨c, hc, hca⟩ := (h.coherent.filed a id).mp hid
    rw [h.coherent.filed b id, hc]
    constructor
    · intro hh
      obtain ⟨c', hc', rfl⟩ := hh
      obtain rfl := Option.some.inj hc'
      exact ⟨hca, by simp⟩
    · intro hh
      exact ⟨c, rfl, hca.trans hh.1.symm⟩
  | cons call calls ih =>
    obtain ⟨between, hbetween, hrest⟩ := Option.bind_eq_some_iff.mp hlog
    have hholds := h.after? hbetween
    by_cases hcall : call = .remove a
    · subst hcall
      have hspent := hholds.spent_foldlM (h.spent_of_remove hbetween hid) hrest
      simp [hspent.2 b]
    · have hmem : .remove a ∉ call :: calls ↔ .remove a ∉ calls := by
        simp [Ne.symm hcall]
      rw [ih hholds hrest (h.ids_after? hbetween hid hcall), hmem]

/-- Whatever was called before, the ids by address and the content by id tell the same. The ids given
out are one, two, three and so on, an address keeps its own until it is removed and no other gets it,
and a call that fails lacks the content it needs and changes nothing. -/
theorem paired_ofCalls {calls : List Call} (h : ofCalls? calls = some log) :
    log.ledger.Coherent ∧
    (∀ id c, log.ledger.byId? id = some c → 1 ≤ id ∧ id < log.ledger.nextId) ∧
    (∀ a c, log.ledger.at? a = some c ↔ log.ledger.byId? c.id = some c ∧ c.address = a) ∧
    log.given.map Prod.snd = List.range' 1 (log.ledger.nextId - 1) ∧
    (∀ (a : Address) (id : Nat), log.ledger.ids[a]? = some id → (a, id) ∈ log.given) ∧
    (∀ (later : List Call) (log' : Log) (a b : Address) (id : Nat),
      ofCalls? (calls ++ later) = some log' → log.ledger.ids[a]? = some id →
      (log'.ledger.ids[b]? = some id ↔ b = a ∧ .remove a ∉ later)) ∧
    ∀ (call : Call) (f : Fault) (l' : Ledger), call.run log.ledger = .error (.fault f) l' →
      l' = log.ledger ∧ ∃ a, call.needed? log.ledger = some a ∧ log.ledger.at? a = none ∧
        f = .contentNotFound a := by
  have hh := holds_ofCalls? h
  refine ⟨hh.coherent, fun id c hc => ⟨?_, hh.coherent.lt_nextId id c hc⟩,
    fun _ _ => hh.coherent.at?_eq_some, hh.given_eq, hh.mem_given, ?_, ?_⟩
  · have hid := (hh.coherent.filed c.address id).mpr ⟨c, hc, rfl⟩
    have hmem := List.mem_map_of_mem (f := Prod.snd) (hh.mem_given _ _ hid)
    rw [hh.given_eq, List.mem_range'_1] at hmem
    exact hmem.1
  · intro later log' a b id hlater hid
    rw [ofCalls?, List.foldlM_append] at hlater
    obtain ⟨between, hbetween, hrest⟩ := Option.bind_eq_some_iff.mp hlater
    obtain rfl := Option.some.inj (h.symm.trans hbetween)
    exact hh.ids_foldlM hrest hid b
  · intro call f l' hcall
    exact (call.yields_run hh.coherent).of_fault hcall

/-- A post, its reply, the post again under a third id, and a vote where there is nothing. -/
def rewrittenCalls : List Call :=
  let post := (Content.post ⟨"alice", "morning"⟩ .epoch).inCategory "news"
  let reply := (Content.post ⟨"bob", "answer"⟩ .epoch).replyTo post.address
  [.upsert post, .upsert reply, .remove post.address, .upsert post,
    .applyVote ⟨"carol", "noon"⟩ 5 1]

theorem paired_rewrittenCalls : ∃ log, ofCalls? rewrittenCalls = some log ∧ log.ledger.Coherent ∧
    log.given = [(⟨"alice", "morning"⟩, 1), (⟨"bob", "answer"⟩, 2), (⟨"alice", "morning"⟩, 3)] := by
  have hsome : (ofCalls? rewrittenCalls).isSome := by decide +kernel
  obtain ⟨log, hlog⟩ := Option.isSome_iff_exists.mp hsome
  have hgiven : (ofCalls? rewrittenCalls).map Log.given =
      some [(⟨"alice", "morning"⟩, 1), (⟨"bob", "answer"⟩, 2), (⟨"alice", "morning"⟩, 3)] := by
    decide +kernel
  rw [hlog, Option.map_some] at hgiven
  exact ⟨log, hlog, (paired_ofCalls hlog).1, Option.some.inj hgiven⟩

end Log

end Ledger

end TagCatalog
