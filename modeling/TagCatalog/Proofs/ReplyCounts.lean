import TagCatalog.Proofs.LedgerCalls

/-! The number of replies that the ledger keeps with content, against the content that replies to it.
The two agree until an edit moves content away from a parent or to one, or content comes back that
others still reply to. -/

namespace TagCatalog

/-- What content adds to the replies of an address. -/
def Content.share (c : Content) (a : Address) : Nat := if c.parent? = some a then 1 else 0

theorem Content.share_eq_iff {c c' : Content} {a : Address} :
    c.share a = c'.share a ↔ (c.parent? = some a ↔ c'.parent? = some a) := by
  unfold share
  split <;> split <;> simp_all

namespace Ledger

variable {l l' : Ledger} {id : Nat} {c c' : Content} {call : Call} {given : List (Address × Nat)}

def replies (l : Ledger) (a : Address) : Nat := l.toList.countP fun c => c.parent? = some a

/-- All content has as many replies as the ledger keeps with it. -/
def CountsReplies (l : Ledger) : Prop := ∀ c ∈ l.toList, c.children = l.replies c.address

instance : Decidable l.CountsReplies :=
  inferInstanceAs (Decidable (∀ c ∈ l.toList, c.children = l.replies c.address))

def children? (l : Ledger) (a : Address) : Option Nat := (l.at? a).map (·.children)

/-- The same, address by address. -/
def Exact (l : Ledger) : Prop := ∀ a n, l.children? a = some n → n = l.replies a

theorem Coherent.countsReplies_iff (h : l.Coherent) : l.CountsReplies ↔ l.Exact := by
  constructor
  · intro hl a n hn
    obtain ⟨c, hat, rfl⟩ := Option.map_eq_some_iff.mp hn
    obtain ⟨hc, rfl⟩ := h.at?_eq_some.mp hat
    exact hl c (mem_values.mpr ⟨c.id, hc⟩)
  · intro hl c hmem
    obtain ⟨id, hc⟩ := mem_values.mp hmem
    have hid : c.id = id := h.id_eq id c hc
    have hat : l.at? c.address = some c := h.at?_eq_some.mpr ⟨hid.symm ▸ hc, rfl⟩
    exact hl c.address c.children (by rw [children?, hat, Option.map_some])

theorem replies_put (hc : l.byId? id = some c) (c' : Content) (a : Address) :
    (l.put id c').replies a + c.share a = l.replies a + c'.share a := by
  have hold := (values_perm_erase hc).countP_eq fun c => c.parent? = some a
  have hput : (l.contents.insert id c')[id]? = some c' := by simp
  have hnew := (values_perm_erase hput).countP_eq fun c => c.parent? = some a
  rw [erase_insert] at hnew
  simp only [List.countP_cons, decide_eq_true_eq] at hold hnew
  simp only [replies, toList, put, Content.share]
  omega

theorem replies_put_of_parent?_eq (hc : l.byId? id = some c) (hparent : c'.parent? = c.parent?)
    (a : Address) : (l.put id c').replies a = l.replies a := by
  have hput := replies_put hc c' a
  have hshare : c'.share a = c.share a := by rw [Content.share, Content.share, hparent]
  omega

theorem replies_recount (hc : l.byId? id = some c) (children : Nat) (a : Address) :
    (l.put id { c with children }).replies a = l.replies a := by
  have hparent : ({ c with children } : Content).parent? = c.parent? := rfl
  exact replies_put_of_parent?_eq hc hparent a

theorem replies_withNew (h : l.Coherent) (c : Content) (depth : Nat) (a : Address) :
    (l.withNew c depth).replies a = l.replies a + c.share a := by
  have hperm := values_insert_perm h.byId?_nextId { c with id := l.nextId, children := 0, depth }
  have hcount := hperm.countP_eq fun c => c.parent? = some a
  simp only [List.countP_cons, decide_eq_true_eq] at hcount
  exact hcount

theorem replies_without (hc : l.byId? id = some c) (a b : Address) :
    (l.without b id).replies a + c.share a = l.replies a := by
  have hcount := (values_perm_erase hc).countP_eq fun c => c.parent? = some a
  simp only [List.countP_cons, decide_eq_true_eq] at hcount
  exact hcount.symm

theorem Coherent.at?_put (h : l.Coherent) (hc : l.byId? id = some c) (c' : Content) (a : Address) :
    (l.put id c').at? a = if c.address = a then some c' else l.at? a := by
  rcases idOf_cases h a with ⟨hids, hat⟩ | ⟨b, hids, hat⟩
  · have hne : c.address ≠ a := by
      rintro rfl
      have hid := (h.filed c.address id).mpr ⟨c, hc, rfl⟩
      cases hids.symm.trans hid
    have hput : (l.put id c').ids[a]? = none := hids
    rw [if_neg hne, hat, at?, hput, Option.bind_none]
  · obtain ⟨hb, rfl⟩ := h.at?_eq_some.mp hat
    have hput : (l.put id c').ids[b.address]? = some b.id := hids
    rw [at?, hput, Option.bind_some, byId?_put, hat, hb]
    by_cases hid : id = b.id
    · subst hid
      obtain rfl := Option.some.inj (hc.symm.trans hb)
      rw [if_pos rfl, if_pos rfl]
    · have hne : c.address ≠ b.address := fun ha => hid (h.id_eq_of_address hc hb ha)
      rw [if_neg hid, if_neg hne]

theorem Coherent.at?_withNew (h : l.Coherent) (c : Content) (depth : Nat) (a : Address) :
    (l.withNew c depth).at? a =
      if c.address = a then some { c with id := l.nextId, children := 0, depth } else l.at? a := by
  have hids : (l.withNew c depth).ids[a]? = if c.address = a then some l.nextId else l.ids[a]? := by
    simp only [Ledger.withNew, getElem?_insert_eq]
  rw [at?, hids]
  by_cases hca : c.address = a
  · rw [if_pos hca, if_pos hca, Option.bind_some, byId?_withNew, if_pos rfl]
  · rw [if_neg hca, if_neg hca]
    rcases idOf_cases h a with ⟨hids, hat⟩ | ⟨b, hids, hat⟩
    · rw [hids, hat, Option.bind_none]
    · have hb := (h.at?_eq_some.mp hat).1
      have hlt := h.lt_nextId b.id b hb
      rw [hids, hat, Option.bind_some, byId?_withNew, if_neg (by omega), hb]

theorem Coherent.at?_without (h : l.Coherent) (hc : l.byId? id = some c) (a : Address) :
    (l.without c.address id).at? a = if c.address = a then none else l.at? a := by
  have hids : (l.without c.address id).ids[a]? = if c.address = a then none else l.ids[a]? := by
    simp only [Ledger.without, getElem?_erase_eq]
  rw [at?, hids]
  by_cases hca : c.address = a
  · rw [if_pos hca, if_pos hca, Option.bind_none]
  · rw [if_neg hca, if_neg hca]
    rcases idOf_cases h a with ⟨hids, hat⟩ | ⟨b, hids, hat⟩
    · rw [hids, hat, Option.bind_none]
    · obtain ⟨hb, rfl⟩ := h.at?_eq_some.mp hat
      have hne : id ≠ b.id := by
        rintro rfl
        obtain rfl := Option.some.inj (hc.symm.trans hb)
        exact hca rfl
      rw [hids, hat, Option.bind_some, byId?_without, if_neg hne, hb]

theorem Coherent.children?_put (h : l.Coherent) (hc : l.byId? id = some c) (c' : Content)
    (a : Address) :
    (l.put id c').children? a = if c.address = a then some c'.children else l.children? a := by
  rw [children?, h.at?_put hc]
  split <;> rfl

theorem Coherent.children?_put_of_eq (h : l.Coherent) (hc : l.byId? id = some c)
    (hchildren : c'.children = c.children) (a : Address) :
    (l.put id c').children? a = l.children? a := by
  obtain rfl : c.id = id := h.id_eq id c hc
  have hat := h.at?_eq_some.mpr ⟨hc, rfl⟩
  rw [h.children?_put hc, hchildren]
  split
  · rename_i ha
    rw [← ha, children?, hat, Option.map_some]
  · rfl

theorem Coherent.children?_withNew (h : l.Coherent) (c : Content) (depth : Nat) (a : Address) :
    (l.withNew c depth).children? a = if c.address = a then some 0 else l.children? a := by
  rw [children?, h.at?_withNew]
  split <;> rfl

theorem Coherent.children?_without (h : l.Coherent) (hc : l.byId? id = some c) (a : Address) :
    (l.without c.address id).children? a = if c.address = a then none else l.children? a := by
  rw [children?, h.at?_without hc]
  split <;> rfl

theorem Coherent.children?_recount (h : l.Coherent) {p : Content} (hp : l.at? p.address = some p)
    (f : Nat → Nat) (a : Address) :
    (l.put p.id { p with children := f p.children }).children? a =
      if p.address = a then (l.children? a).map f else l.children? a := by
  rw [h.children?_put (h.at?_eq_some.mp hp).1]
  split
  · rename_i ha
    rw [← ha, children?, hp, Option.map_some, Option.map_some]
  · rfl

theorem Coherent.children?_dropReply (h : l.Coherent) (a b : Address) :
    (l.dropReply a).children? b = (l.children? b).map fun n => n - if a = b then 1 else 0 := by
  rcases idOf_cases h a with ⟨hids, hat⟩ | ⟨p, hids, hat⟩
  · have hdrop : l.dropReply a = l := by simp only [dropReply, hids]
    rw [hdrop]
    by_cases hab : a = b
    · rw [← hab, children?, hat, Option.map_none, Option.map_none]
    · simp [hab]
  · obtain ⟨hp, rfl⟩ := h.at?_eq_some.mp hat
    have hdrop : l.dropReply p.address = l.put p.id { p with children := p.children - 1 } := by
      simp only [dropReply, hids, hp]
    rw [hdrop, h.children?_recount hat (· - 1)]
    split
    · rfl
    · simp

theorem Coherent.replies_dropReply (h : l.Coherent) (a b : Address) :
    (l.dropReply a).replies b = l.replies b := by
  rcases idOf_cases h a with ⟨hids, -⟩ | ⟨p, hids, hat⟩
  · simp only [dropReply, hids]
  · have hp := (h.at?_eq_some.mp hat).1
    simp only [dropReply, hids, hp]
    exact replies_recount hp _ b

/-- How many replies the ledger keeps with content, and how many there are, after each kind of write. -/
inductive Recounts (l : Ledger) : Call → Ledger → Prop
  | edit {c stored : Content} {l' : Ledger} (h : l.at? c.address = some stored)
    (hchildren : ∀ a, l'.children? a = l.children? a)
    (hreplies : ∀ a, l'.replies a + stored.share a = l.replies a + c.share a) :
    Recounts l (.upsert c) l'
  | fresh {c : Content} {l' : Ledger} (h : l.at? c.address = none)
    (hparent : ∀ a, c.parent? = some a → (l.at? a).isSome)
    (hchildren : ∀ a, l'.children? a =
      if c.address = a then some 0 else (l.children? a).map (· + c.share a))
    (hreplies : ∀ a, l'.replies a = l.replies a + c.share a) :
    Recounts l (.upsert c) l'
  | removal {c : Content} {l' : Ledger} (h : l.at? c.address = some c)
    (hchildren : ∀ a, l'.children? a =
      if c.address = a then none else (l.children? a).map (· - c.share a))
    (hreplies : ∀ a, l'.replies a + c.share a = l.replies a) :
    Recounts l (.remove c.address) l'
  | revision {call : Call} {a : Address} {l' : Ledger} (hcall : call.revised? = some a)
    (hchildren : ∀ a, l'.children? a = l.children? a)
    (hreplies : ∀ a, l'.replies a = l.replies a) : Recounts l call l'

theorem Upserted.recounts (h : l.Coherent) (hu : Upserted l c id l') :
    Recounts l (.upsert c) l' := by
  cases hu with
  | edit stored hat =>
    have hstored := (h.at?_eq_some.mp hat).1
    exact .edit hat (h.children?_put_of_eq hstored rfl) (replies_put hstored _)
  | root hnone hroot =>
    have hshare (a : Address) : c.share a = 0 := by simp [Content.share, hroot]
    refine .fresh hnone (by simp [hroot]) (fun a => ?_) (replies_withNew h c 0)
    rw [h.children?_withNew, hshare]
    simp
  | @reply hnone b hreply p hp =>
    obtain ⟨hstored, rfl⟩ := h.at?_eq_some.mp hp
    have hcounted := (Recounted.put h hstored (p.children + 1)).coherent
    have hshare (a : Address) : c.share a = if p.address = a then 1 else 0 := by
      simp [Content.share, hreply]
    refine .fresh hnone (by simp [hreply, hp]) (fun a => ?_) fun a => ?_
    · have hadded := h.children?_recount hp (· + 1) a
      rw [hcounted.children?_withNew, hadded, hshare]
      by_cases hpa : p.address = a <;> simp [hpa]
    · rw [replies_withNew hcounted, replies_recount hstored]

theorem recounts_cleared (h : l.Coherent) (hat : l.at? c.address = some c) :
    Recounts l (.remove c.address) (l.cleared c) := by
  have hc := (h.at?_eq_some.mp hat).1
  have hgone := h.without hc
  have hreplies (a : Address) := replies_without hc a c.address
  cases hparent : c.parent? with
  | none =>
    have hshare (a : Address) : c.share a = 0 := by simp [Content.share, hparent]
    have hcleared : l.cleared c = l.without c.address c.id := by
      rw [cleared, hparent]
      rfl
    rw [hcleared]
    refine .removal hat (fun a => ?_) hreplies
    rw [h.children?_without hc, hshare]
    simp
  | some parent =>
    have hshare (a : Address) : c.share a = if parent = a then 1 else 0 := by
      simp [Content.share, hparent]
    have hcleared : l.cleared c = (l.without c.address c.id).dropReply parent := by
      rw [cleared, hparent]
      rfl
    rw [hcleared]
    refine .removal hat (fun a => ?_) fun a => ?_
    · rw [hgone.children?_dropReply, h.children?_without hc, hshare]
      by_cases hca : c.address = a <;> simp [hca]
    · rw [hgone.replies_dropReply]
      exact hreplies a

theorem Writes.recounts (h : l.Coherent) (hw : Writes l call given l') : Recounts l call l' := by
  cases hw with
  | upsert hu => exact hu.recounts h
  | remove hat =>
    obtain ⟨-, rfl⟩ := h.at?_eq_some.mp hat
    exact recounts_cleared h hat
  | revise hcall hat =>
    have hc := (h.at?_eq_some.mp hat).1
    exact .revision hcall (h.children?_put_of_eq hc rfl) (replies_put_of_parent?_eq hc rfl)

/-- An edit between parents of which one is there, or new content that others reply to already. -/
def Call.Miscounts (l : Ledger) : Call → Prop
  | .upsert c =>
    match l.at? c.address with
    | some stored => c.parent? ≠ stored.parent? ∧
      ∃ a, (c.parent? = some a ∨ stored.parent? = some a) ∧ (l.at? a).isSome
    | none => (∀ a, c.parent? = some a → (l.at? a).isSome) ∧ 0 < l.replies c.address
  | _ => False

theorem Call.not_miscounts_of_needed? {a : Address} (hneeded : call.needed? l = some a)
    (hnone : l.at? a = none) : ¬ call.Miscounts l := by
  cases call with
  | upsert c =>
    cases hat : l.at? c.address with
    | some stored => simp [needed?, hat] at hneeded
    | none =>
      simp only [needed?, hat, Option.isSome_none, Bool.false_eq_true, if_false] at hneeded
      simp only [Miscounts, hat]
      intro hh
      have hsome := hh.1 a hneeded
      simp [hnone] at hsome
  | _ => exact id

theorem parent_moved_iff {p p' : Option Address} :
    (∀ a, (l.at? a).isSome → (p = some a ↔ p' = some a)) ↔
      ¬ (p ≠ p' ∧ ∃ a, (p = some a ∨ p' = some a) ∧ (l.at? a).isSome) := by
  constructor
  · intro hsame hmoved
    obtain ⟨hne, a, ha, hat⟩ := hmoved
    have hiff := hsame a hat
    rcases ha with rfl | rfl
    · exact hne (hiff.mp rfl).symm
    · exact hne (hiff.mpr rfl)
  · intro hmoved a hat
    by_cases hne : p = p'
    · rw [hne]
    · constructor
      · intro ha
        exact absurd ⟨hne, a, .inl ha, hat⟩ hmoved
      · intro ha
        exact absurd ⟨hne, a, .inr ha, hat⟩ hmoved

theorem Exact.edit_iff (h : l.Exact) {c stored : Content}
    (hchildren : ∀ a, l'.children? a = l.children? a)
    (hreplies : ∀ a, l'.replies a + stored.share a = l.replies a + c.share a) :
    l'.Exact ↔ ∀ a, (l.at? a).isSome → (c.parent? = some a ↔ stored.parent? = some a) := by
  refine forall_congr' fun a => ?_
  have hmoved := hreplies a
  rw [hchildren a, ← Content.share_eq_iff]
  cases hb : l.at? a with
  | none => simp [children?, hb]
  | some b =>
    have hb : l.children? a = some b.children := by rw [children?, hb, Option.map_some]
    have hright := h a _ hb
    simp only [hb, Option.some.injEq, forall_eq', Option.isSome_some, true_implies]
    omega

theorem Exact.fresh_iff (h : l.Exact) {c : Content} (hself : c.share c.address = 0)
    (hchildren : ∀ a, l'.children? a =
      if c.address = a then some 0 else (l.children? a).map (· + c.share a))
    (hreplies : ∀ a, l'.replies a = l.replies a + c.share a) :
    l'.Exact ↔ l.replies c.address = 0 := by
  constructor
  · intro hright
    have hzero := hright c.address 0 (by rw [hchildren, if_pos rfl])
    have hmoved := hreplies c.address
    omega
  · intro hzero a n hn
    have hmoved := hreplies a
    rw [hchildren] at hn
    split at hn
    · rename_i hca
      subst hca
      obtain rfl := Option.some.inj hn
      omega
    · obtain ⟨m, hm, rfl⟩ := Option.map_eq_some_iff.mp hn
      rw [hmoved, h a m hm]

theorem Exact.removal (h : l.Exact) {c : Content}
    (hchildren : ∀ a, l'.children? a =
      if c.address = a then none else (l.children? a).map (· - c.share a))
    (hreplies : ∀ a, l'.replies a + c.share a = l.replies a) : l'.Exact := by
  intro a n hn
  have hmoved := hreplies a
  rw [hchildren] at hn
  split at hn
  · cases hn
  · obtain ⟨m, hm, rfl⟩ := Option.map_eq_some_iff.mp hn
    have hright := h a m hm
    omega

theorem Recounts.exact_iff (h : l.Exact) (hr : Recounts l call l') :
    l'.Exact ↔ ¬ call.Miscounts l := by
  cases hr with
  | edit hat hchildren hreplies =>
    rw [h.edit_iff hchildren hreplies, parent_moved_iff]
    simp only [Call.Miscounts, hat]
  | @fresh c _ hnone hparent hchildren hreplies =>
    -- New content does not reply to itself, as what it replies to was there before.
    have hself : c.share c.address = 0 := by
      refine if_neg fun hc => ?_
      have hsome := hparent c.address hc
      simp [hnone] at hsome
    rw [h.fresh_iff hself hchildren hreplies]
    simp only [Call.Miscounts, hnone]
    constructor
    · intro hzero hmis
      have hpos := hmis.2
      omega
    · intro hmis
      by_contra hne
      exact hmis ⟨hparent, Nat.pos_of_ne_zero hne⟩
  | removal hat hchildren hreplies =>
    exact iff_of_true (h.removal hchildren hreplies) id
  | revision hcall hchildren hreplies =>
    have hright : l'.Exact := by
      intro a n hn
      rw [hreplies a]
      exact h a n (hchildren a ▸ hn)
    refine iff_of_true hright ?_
    cases call with
    | upsert c => cases hcall
    | _ => exact id

namespace Log

variable {log log' : Log}

theorem Holds.countsReplies_after?_iff (h : log.Holds) (hl : log.ledger.CountsReplies)
    (hlog : log.after? call = some log') :
    log'.ledger.CountsReplies ↔ ¬ call.Miscounts log.ledger := by
  rcases writes_of_after? h.coherent hlog with ⟨rfl, a, hneeded, hnone⟩ | ⟨given, hw, -⟩
  · exact iff_of_true hl (call.not_miscounts_of_needed? hneeded hnone)
  · have hexact := h.coherent.countsReplies_iff.mp hl
    rw [(hw.coherent h.coherent).countsReplies_iff]
    exact (hw.recounts h.coherent).exact_iff hexact

theorem exists_ofCalls?_initial {before calls : List Call} (h : ofCalls? calls = some log)
    (hcalls : before <+: calls) : ∃ log', ofCalls? before = some log' := by
  obtain ⟨later, rfl⟩ := hcalls
  rw [ofCalls?, List.foldlM_append] at h
  obtain ⟨log', hlog', -⟩ := Option.bind_eq_some_iff.mp h
  exact ⟨log', hlog'⟩

theorem ofCalls?_append_singleton (before : List Call) (call : Call) :
    ofCalls? (before ++ [call]) = (ofCalls? before).bind (·.after? call) := by
  rw [ofCalls?, List.foldlM_append]
  simp [ofCalls?]

/-- The numbers of replies are right all along a run just if no call of it miscounts. -/
theorem countsReplies_along_iff {calls : List Call} (h : ofCalls? calls = some log) :
    (∀ before log', before <+: calls → ofCalls? before = some log' → log'.ledger.CountsReplies) ↔
      ∀ before call log', before ++ [call] <+: calls → ofCalls? before = some log' →
        ¬ Call.Miscounts log'.ledger call := by
  constructor
  · intro hright before call log' hcalls hlog'
    obtain ⟨after, hafter⟩ := exists_ofCalls?_initial h hcalls
    have hstep : log'.after? call = some after := by
      rwa [ofCalls?_append_singleton, hlog'] at hafter
    have hbefore := hright before log' ((List.prefix_append before [call]).trans hcalls) hlog'
    exact ((holds_ofCalls? hlog').countsReplies_after?_iff hbefore hstep).mp
      (hright _ after hcalls hafter)
  · intro hnone before
    induction before using List.reverseRecOn with
    | nil =>
      intro log' _ hlog'
      obtain rfl := Option.some.inj hlog'
      decide +kernel
    | append_singleton before call ih =>
      intro log' hcalls hlog'
      rw [ofCalls?_append_singleton] at hlog'
      obtain ⟨between, hbetween, hstep⟩ := Option.bind_eq_some_iff.mp hlog'
      have hbefore := ih between ((List.prefix_append before [call]).trans hcalls) hbetween
      exact ((holds_ofCalls? hbetween).countsReplies_after?_iff hbefore hstep).mpr
        (hnone before call between hcalls hbetween)

/-- A reply is moved by an edit from one post to another. -/
def movedReply : List Call :=
  let morning := (Content.post ⟨"alice", "morning"⟩ .epoch).inCategory "news"
  let noon := (Content.post ⟨"carol", "noon"⟩ .epoch).inCategory "news"
  let answer := Content.post ⟨"bob", "answer"⟩ .epoch
  [.upsert morning, .upsert noon, .upsert (answer.replyTo morning.address),
    .upsert (answer.replyTo noon.address)]

theorem exists_ofCalls?_movedReply :
    ∃ log, ofCalls? movedReply = some log ∧ ¬ log.ledger.CountsReplies := by
  have hsome : (ofCalls? movedReply).isSome := by decide +kernel
  obtain ⟨log, hlog⟩ := Option.isSome_iff_exists.mp hsome
  have hwrong : (ofCalls? movedReply).map (fun log => decide log.ledger.CountsReplies) =
      some false := by decide +kernel
  rw [hlog, Option.map_some] at hwrong
  exact ⟨log, hlog, of_decide_eq_false (Option.some.inj hwrong)⟩

theorem countsReplies_along_movedReply : ∃ log, ofCalls? movedReply = some log ∧
    ¬ log.ledger.CountsReplies ∧ ∃ before call log', before ++ [call] <+: movedReply ∧
      ofCalls? before = some log' ∧ Call.Miscounts log'.ledger call := by
  obtain ⟨log, hlog, hwrong⟩ := exists_ofCalls?_movedReply
  refine ⟨log, hlog, hwrong, ?_⟩
  by_contra hnone
  push Not at hnone
  have hright := (countsReplies_along_iff hlog).mpr hnone
  exact hwrong (hright movedReply log (List.prefix_refl movedReply) hlog)

theorem not_countsReplies :
    ¬ ∀ calls log, ofCalls? calls = some log → log.ledger.CountsReplies := by
  intro h
  obtain ⟨log, hlog, hwrong⟩ := exists_ofCalls?_movedReply
  exact hwrong (h movedReply log hlog)

end Log

end Ledger

end TagCatalog
