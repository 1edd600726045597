import TagCatalog.Proofs.Effect
import TagCatalog.Proofs.Ledger

/-! Histories of a ledger and a catalog side by side, and what content is filed under along them,
told from the operations alone. The entries of the catalog say the same after every move. -/

namespace TagCatalog

structure Node where
  ledger : Ledger := .empty
  catalog : Catalog := .empty

inductive Move
  | upsert (c : Content)
  | remove (a : Address)
  | applyVote (a : Address) (rshares : Int64) (votes : Int32)
  | setCashout (a : Address) (cashout : Option Instant)
  | closePayout (a : Address)
  | apply (op : Operation)

namespace Node

def onLedger (m : Update Ledger α) : Update Node α :=
  Update.within Node.ledger (fun n ledger => { n with ledger }) m

def onCatalog (m : Update Catalog α) : Update Node α :=
  Update.within Node.catalog (fun n catalog => { n with catalog }) m

def run (s : Settings) : Move → Update Node Unit
  | .upsert c => do let _ ← onLedger (Ledger.upsert c)
  | .remove a => do let _ ← onLedger (Ledger.remove a)
  | .applyVote a rshares votes => onLedger (Ledger.applyVote a rshares votes)
  | .setCashout a cashout => onLedger (Ledger.setCashout a cashout)
  | .closePayout a => onLedger (Ledger.closePayout a)
  | .apply op => do let _ ← onCatalog (Catalog.apply s (← get).ledger.source op)

/-- Where a move leads, and whether it returned or reported a fault. -/
def Moves (s : Settings) (m : Move) (n : Node) (returned : Bool) (n' : Node) : Prop :=
  match run s m n with
  | .ok _ t => returned = true ∧ n' = t
  | .error (.fault _) t => returned = false ∧ n' = t
  | .error .overflow _ => False

theorem Moves.of_yields {s : Settings} {m : Move} {n n' : Node} {returned : Bool}
    {P : Bool → Node → Prop} (hm : Moves s m n returned n')
    (h : Update.Yields (run s m) n (fun _ t => P true t) fun _ t => P false t) :
    P returned n' := by
  unfold Moves at hm
  unfold Update.Yields at h
  split at hm
  · rename_i hrun
    obtain ⟨rfl, rfl⟩ := hm
    rwa [hrun] at h
  · rename_i hrun
    obtain ⟨rfl, rfl⟩ := hm
    rwa [hrun] at h
  · exact hm.elim

theorem Moves.of_returned {s : Settings} {m : Move} {n n' : Node} {P : Node → Prop}
    (hm : Moves s m n true n')
    (h : Update.Yields (run s m) n (fun _ t => P t) fun _ _ => True) : P n' := by
  have hh := hm.of_yields (P := fun returned t => returned = true → P t)
    (h.mono (fun _ _ ht _ => ht) fun _ _ _ => nofun)
  exact hh rfl

theorem Moves.of_failed {s : Settings} {m : Move} {n n' : Node} {P : Node → Prop}
    (hm : Moves s m n false n')
    (h : Update.Yields (run s m) n (fun _ _ => True) fun _ t => P t) : P n' := by
  have hh := hm.of_yields (P := fun returned t => returned = false → P t)
    (h.mono (fun _ _ _ => nofun) fun _ _ ht _ => ht)
  exact hh rfl

end Node

/-- What a history says of content ids, without a catalog. -/
structure Filed where
  topics : Nat → Std.ExtTreeSet Topic := fun _ => ∅
  /-- The author of what the ledger last had under an id. -/
  author : Nat → Option String := fun _ => none

namespace Filed

/-- A write that returns files open content under the topics of its metadata, a closed payout window
takes it out, and so does the deletion that follows its removal. Nothing else changes a name. -/
def topicsAfter (s : Settings) (l : Ledger) (returned : Bool) (F : Filed) :
    Move → Nat → Std.ExtTreeSet Topic
  | .apply (.comment a _ _) =>
    match l.at? a with
    | some c =>
      if returned && c.isOpen then
        Function.update F.topics c.id (.ofList (l.source.classify s c).topics)
      else F.topics
    | none => F.topics
  | .apply (.payoutUpdate a) =>
    match l.at? a with
    | some c => if c.isOpen then F.topics else Function.update F.topics c.id ∅
    | none => F.topics
  | .apply (.delete a) => fun id =>
    if l.byId? id = none ∧ F.author id = some a.author then ∅ else F.topics id
  | _ => F.topics

def authorAfter (l' : Ledger) (F : Filed) (id : Nat) : Option String :=
  ((l'.byId? id).map (·.author)).or (F.author id)

def after (s : Settings) (l l' : Ledger) (returned : Bool) (m : Move) (F : Filed) : Filed where
  topics := F.topicsAfter s l returned m
  author := F.authorAfter l'

end Filed

inductive History (s : Settings) : Node → Filed → Prop
  | start : History s {} {}
  | move {n n' : Node} {F : Filed} {m : Move} {returned : Bool} (h : History s n F)
    (hm : Node.Moves s m n returned n') :
    History s n' (F.after s n.ledger n'.ledger returned m)

/-- Content is filed under these topics in a catalog, each entry for the author of its content. -/
structure Filed.Names (author : Nat → Option String) (topics : Nat → Std.ExtTreeSet Topic)
    (c : Catalog) : Prop where
  names : ∀ id topic, (∃ a, c.Files id a topic) ↔ topic ∈ topics id
  owner : ∀ id a topic, c.Files id a topic → author id = some a

structure Filed.Holds (F : Filed) (n : Node) : Prop where
  ledger : n.ledger.Coherent
  catalog : n.catalog.Sound
  author : ∀ id c, n.ledger.byId? id = some c → F.author id = some c.author
  lt_nextId : ∀ id a, F.author id = some a → id < n.ledger.nextId
  names : Filed.Names F.author F.topics n.catalog

variable {s : Settings} {n n' : Node} {F : Filed} {m : Move} {returned : Bool}

theorem Filed.Holds.start : Filed.Holds {} {} where
  ledger := Ledger.Coherent.empty
  catalog := Catalog.Sound.empty
  author := by simp [Ledger.empty, Ledger.byId?]
  lt_nextId := by simp
  names := by
    constructor <;> simp [Catalog.Files, Catalog.empty, EntryTable.empty, EntryTable.get?]

/-- A later state of a ledger: what is under an id was there before, of the same author, or the id
is new. -/
structure Ledger.Follows (l l' : Ledger) : Prop where
  coherent : l'.Coherent
  nextId_le : l.nextId ≤ l'.nextId
  before : ∀ id c', l'.byId? id = some c' →
    (∃ c, l.byId? id = some c ∧ c'.author = c.author) ∨ l.nextId ≤ id

theorem Ledger.Follows.refl {l : Ledger} (h : l.Coherent) : l.Follows l :=
  ⟨h, Nat.le_refl _, fun _ c hc => .inl ⟨c, hc, rfl⟩⟩

theorem Ledger.Changed.follows {l l' : Ledger} {id : Nat} (h : Changed id l l') :
    l.Follows l' where
  coherent := h.coherent
  nextId_le := h.nextId_le
  before j c' hc' := by
    by_cases hj : j = id
    · subst hj
      cases hc : l.byId? j with
      | none => exact .inr (h.fresh c' hc hc')
      | some c => exact .inl ⟨c, rfl, h.author c c' hc hc'⟩
    · obtain ⟨c, hc, hcc⟩ := Content.exists_of_map_unanswered (h.others j hj) hc'
      have hauthor := congrArg Content.author hcc
      exact .inl ⟨c, hc, hauthor.symm⟩

theorem Filed.Holds.author_mono (h : F.Holds n) (hl : n.ledger.Follows n'.ledger) {id : Nat}
    {a : String} (ha : F.author id = some a) :
    F.authorAfter n'.ledger id = some a := by
  simp only [Filed.authorAfter]
  cases hc' : n'.ledger.byId? id with
  | none => simpa using ha
  | some c' =>
    rcases hl.before id c' hc' with ⟨c, hc, hcc⟩ | hnew
    · have hc := (h.author id c hc).symm.trans ha
      simpa [hcc] using hc
    · -- An id that is given now had no author before.
      have hlt := h.lt_nextId id a ha
      omega

theorem Filed.Holds.lt_nextId_after (h : F.Holds n) (hl : n.ledger.Follows n'.ledger) {id : Nat}
    {a : String} (ha : F.authorAfter n'.ledger id = some a) : id < n'.ledger.nextId := by
  simp only [Filed.authorAfter] at ha
  cases hc' : n'.ledger.byId? id with
  | none =>
    have hlt := h.lt_nextId id a (by simpa [hc'] using ha)
    have hle := hl.nextId_le
    omega
  | some c' => exact hl.coherent.lt_nextId id c' hc'

/-- What the history says once the ledger has changed and the catalog has not. -/
def Filed.reread (l' : Ledger) (F : Filed) : Filed := { F with author := F.authorAfter l' }

theorem Filed.Holds.reread (h : F.Holds n) (hl : n.ledger.Follows n'.ledger)
    (hcatalog : n'.catalog = n.catalog) : (F.reread n'.ledger).Holds n' where
  ledger := hl.coherent
  catalog := hcatalog ▸ h.catalog
  author id c hc := by simp [Filed.reread, Filed.authorAfter, hc]
  lt_nextId id a ha := h.lt_nextId_after hl ha
  names := by
    rw [hcatalog]
    exact ⟨h.names.names, fun id a topic hf => h.author_mono hl (h.names.owner id a topic hf)⟩

namespace Filed.Names

open Catalog

variable {author : Nat → Option String} {topics : Nat → Std.ExtTreeSet Topic} {c d : Catalog}
  (h : Filed.Names author topics c)
include h

theorem refreshed {path : List Content} (hd : Refreshed s path c d) :
    Filed.Names author topics d where
  names id topic := by
    simp only [hd.files_iff]
    exact h.names id topic
  owner id a topic hf := h.owner id a topic (hd.files_iff.mp hf)

theorem reclassified {content : Content} {parent : Option Nat} {new : List Topic}
    (hd : Reclassified s content parent new c d) (hauthor : author content.id = some content.author) :
    Filed.Names author (Function.update topics content.id (.ofList new)) d where
  names id topic := by
    by_cases hid : id = content.id
    · subst hid
      rw [hd.exists_files_iff, Function.update_self, Std.ExtTreeSet.mem_ofList,
        List.contains_iff_mem]
    · rw [Function.update_of_ne hid]
      simp only [hd.files_of_ne hid]
      exact h.names id topic
  owner id a topic hf := by
    by_cases hid : id = content.id
    · subst hid
      rcases (hd.files_self hf).2 with rfl | hold
      · exact hauthor
      · exact h.owner _ a topic hold
    · exact h.owner id a topic ((hd.files_of_ne hid).mp hf)

theorem withdrawn {content : Nat} {path : List Content}
    (hd : Thinned s (fun e => e.content ≠ content) path c d) :
    Filed.Names author (Function.update topics content ∅) d := by
  have hfiles (id : Nat) (a : String) (topic : Topic) :
      d.Files id a topic ↔ c.Files id a topic ∧ decide (id ≠ content) = true :=
    hd.files_iff (fun id _ => id ≠ content) fun _ => rfl
  refine ⟨fun id topic => ?_, fun id a topic hf => h.owner id a topic ((hfiles id a topic).mp hf).1⟩
  simp only [hfiles]
  by_cases hid : id = content
  · subst hid
    simp
  · rw [Function.update_of_ne hid, ← h.names]
    simp [hid]

theorem swept {source : ContentSource} {writer : String}
    (hd : Thinned s (fun e => !isOrphan source writer e) [] c d) :
    Filed.Names author (fun id =>
      if source.byId? id = none ∧ author id = some writer then ∅ else topics id) d := by
  have hfiles (id : Nat) (a : String) (topic : Topic) : d.Files id a topic ↔
      c.Files id a topic ∧ (!(a = writer && (source.byId? id).isNone)) = true :=
    hd.files_iff (fun id a => !(a = writer && (source.byId? id).isNone)) fun _ => rfl
  refine ⟨fun id topic => ?_, fun id a topic hf => h.owner id a topic ((hfiles id a topic).mp hf).1⟩
  simp only [hfiles]
  constructor
  · intro hh
    obtain ⟨a, hf, hkept⟩ := hh
    -- The entry has the author of its content, so that it was spared for one reason or the other.
    have ha := h.owner id a topic hf
    have hno : ¬ (source.byId? id = none ∧ author id = some writer) := by
      intro hh
      obtain ⟨hgone, hwriter⟩ := hh
      obtain rfl := Option.some.inj (ha.symm.trans hwriter)
      simp [hgone] at hkept
    rw [if_neg hno]
    exact (h.names id topic).mp ⟨a, hf⟩
  · intro ht
    split at ht
    · simp at ht
    · rename_i hno
      obtain ⟨a, hf⟩ := (h.names id topic).mpr ht
      refine ⟨a, hf, ?_⟩
      have ha := h.owner id a topic hf
      by_cases hgone : source.byId? id = none
      · have hne : a ≠ writer := fun hw => hno ⟨hgone, hw ▸ ha⟩
        simp [hne]
      · obtain ⟨content, hcontent⟩ := Option.ne_none_iff_exists'.mp hgone
        simp [hcontent]

end Filed.Names

theorem Filed.Holds.names_after (h : F.Holds n) {op : Operation} {d : Catalog}
    (he : Catalog.Effect s n.ledger.source returned op n.catalog d) :
    Filed.Names F.author (F.topicsAfter s n.ledger returned (.apply op)) d := by
  have hsame (hd : d = n.catalog) : Filed.Names F.author F.topics d := hd ▸ h.names
  cases op with
  | comment a parentAuthor parentPermlink =>
    simp only [Catalog.Effect, Ledger.source] at he
    simp only [topicsAfter]
    cases hat : n.ledger.at? a with
    | none =>
      rw [hat] at he
      exact hsame he
    | some content =>
      simp only [hat] at he ⊢
      split
      · rename_i hopen
        rw [if_pos hopen] at he
        have hc := (h.ledger.at?_eq_some.mp hat).1
        exact h.names.reclassified he (h.author _ _ hc)
      · rename_i hopen
        rw [if_neg hopen] at he
        exact hsame he
  | vote voter a weight => exact h.names.refreshed he
  | reward a payout => exact h.names.refreshed he
  | payoutUpdate a =>
    simp only [Catalog.Effect, Ledger.source] at he
    simp only [topicsAfter]
    cases hat : n.ledger.at? a with
    | none =>
      rw [hat] at he
      exact hsame he
    | some content =>
      simp only [hat] at he ⊢
      split
      · rename_i hopen
        rw [if_pos hopen] at he
        exact h.names.refreshed he
      · rename_i hopen
        rw [if_neg hopen] at he
        exact h.names.withdrawn he
  | delete a => exact h.names.swept he
  | transfer sender recipient amount memo => exact hsame he
  | other => exact hsame he

theorem Filed.Holds.of_effect (h : F.Holds n) {op : Operation} {d : Catalog} (hd : d.Sound)
    (he : Catalog.Effect s n.ledger.source returned op n.catalog d) :
    (F.after s n.ledger n.ledger returned (.apply op)).Holds { n with catalog := d } := by
  have hl := Ledger.Follows.refl h.ledger
  have hauthor : (F.after s n.ledger n.ledger returned (.apply op)).author = F.author := by
    funext id
    simp only [Filed.after, Filed.authorAfter]
    cases hc : n.ledger.byId? id with
    | none => rfl
    | some c => simp [h.author id c hc]
  refine ⟨h.ledger, hd, ?_, ?_, ?_⟩
  · rw [hauthor]
    exact h.author
  · rw [hauthor]
    exact h.lt_nextId
  · rw [hauthor]
    exact h.names_after he

namespace Node.Moves

theorem ledger_eq {op : Operation} (hm : Moves s (.apply op) n returned n') :
    n'.ledger = n.ledger := by
  refine hm.of_yields (P := fun _ n' => n'.ledger = n.ledger) ?_
  simp only [run, onCatalog, Update.yields_bind, Update.yields_pure, Update.yields_get,
    Update.yields_within]
  exact .of_forall (fun _ _ => trivial) fun _ _ => trivial

theorem catalog_eq (hm : Moves s m n returned n') (hop : ∀ op, m ≠ .apply op) :
    n'.catalog = n.catalog := by
  refine hm.of_yields (P := fun _ n' => n'.catalog = n.catalog) ?_
  cases m with
  | upsert c =>
    simp only [run, onLedger, Update.yields_bind, Update.yields_pure, Update.yields_within]
    exact .of_forall (fun _ _ => trivial) fun _ _ => trivial
  | remove a =>
    simp only [run, onLedger, Update.yields_bind, Update.yields_pure, Update.yields_within]
    exact .of_forall (fun _ _ => trivial) fun _ _ => trivial
  | applyVote a rshares votes =>
    simp only [run, onLedger, Update.yields_within]
    exact .of_forall (fun _ _ => trivial) fun _ _ => trivial
  | setCashout a cashout =>
    simp only [run, onLedger, Update.yields_within]
    exact .of_forall (fun _ _ => trivial) fun _ _ => trivial
  | closePayout a =>
    simp only [run, onLedger, Update.yields_within]
    exact .of_forall (fun _ _ => trivial) fun _ _ => trivial
  | apply op => exact absurd rfl (hop op)

theorem upserted {c : Content} (hl : n.ledger.Coherent) (hm : Moves s (.upsert c) n true n') :
    ∃ id, Ledger.Changed id n.ledger n'.ledger ∧ ∃ children depth,
      n'.ledger.byId? id = some { c with id, children, depth } ∧ Ledger.Slot n.ledger c id depth := by
  apply hm.of_returned
  simp only [run, onLedger, Update.yields_bind, Update.yields_pure, Update.yields_within]
  exact (Ledger.yields_upsert hl c).mono (fun id _ hh => ⟨id, hh⟩) fun _ _ _ => trivial

theorem removed {a : Address} (hl : n.ledger.Coherent) (hm : Moves s (.remove a) n true n') :
    ∃ c, n.ledger.at? a = some c ∧ n'.ledger.byId? c.id = none ∧
      Ledger.Changed c.id n.ledger n'.ledger := by
  apply hm.of_returned
  simp only [run, onLedger, Update.yields_bind, Update.yields_pure, Update.yields_within]
  exact (Ledger.yields_remove hl a).mono (fun c _ h => ⟨c, h⟩) fun _ _ _ => trivial

theorem voted {a : Address} {rshares : Int64} {votes : Int32} (hl : n.ledger.Coherent)
    (hm : Moves s (.applyVote a rshares votes) n true n') :
    ∃ c, n.ledger.at? a = some c ∧ Ledger.Changed c.id n.ledger n'.ledger ∧
      ∃ netRshares netVotes, n'.ledger.byId? c.id = some { c with netRshares, netVotes } := by
  apply hm.of_returned
  simp only [run, onLedger, Update.yields_within]
  exact (Ledger.yields_applyVote hl a rshares votes).mono (fun _ _ h => h) fun _ _ _ => trivial

theorem moved {a : Address} {cashout : Option Instant} (hl : n.ledger.Coherent)
    (hm : Moves s (.setCashout a cashout) n true n') :
    ∃ c, n.ledger.at? a = some c ∧
      n'.ledger.byId? c.id = some { c with cashoutTime := cashout } ∧
      Ledger.Changed c.id n.ledger n'.ledger := by
  apply hm.of_returned
  simp only [run, onLedger, Update.yields_within]
  exact (Ledger.yields_setCashout hl a cashout).mono (fun _ _ h => h) fun _ _ _ => trivial

theorem closed {a : Address} (hl : n.ledger.Coherent) (hm : Moves s (.closePayout a) n true n') :
    ∃ c, n.ledger.at? a = some c ∧ n'.ledger.byId? c.id = some { c with cashoutTime := none } ∧
      Ledger.Changed c.id n.ledger n'.ledger :=
  moved (s := s) (a := a) hl hm

theorem ledger_eq_of_failed (hl : n.ledger.Coherent) (hm : Moves s m n false n') :
    n'.ledger = n.ledger := by
  refine hm.of_failed (P := fun n' => n'.ledger = n.ledger) ?_
  cases m with
  | upsert c =>
    simp only [run, onLedger, Update.yields_bind, Update.yields_pure, Update.yields_within]
    exact (Ledger.yields_upsert hl c).mono (fun _ _ _ => trivial) fun _ _ hl' => hl'
  | remove a =>
    simp only [run, onLedger, Update.yields_bind, Update.yields_pure, Update.yields_within]
    exact (Ledger.yields_remove hl a).mono (fun _ _ _ => trivial) fun _ _ hl' => hl'.1
  | applyVote a rshares votes =>
    simp only [run, onLedger, Update.yields_within]
    exact (Ledger.yields_applyVote hl a rshares votes).mono (fun _ _ _ => trivial)
      fun _ _ hl' => hl'
  | setCashout a cashout =>
    simp only [run, onLedger, Update.yields_within]
    exact (Ledger.yields_setCashout hl a cashout).mono (fun _ _ _ => trivial) fun _ _ hl' => hl'
  | closePayout a =>
    simp only [run, onLedger, Update.yields_within]
    exact (Ledger.yields_setCashout hl a none).mono (fun _ _ _ => trivial) fun _ _ hl' => hl'
  | apply op =>
    simp only [run, onCatalog, Update.yields_bind, Update.yields_pure, Update.yields_get,
      Update.yields_within]
    exact .of_forall (fun _ _ => trivial) fun _ _ => trivial

/-- Whatever a move does, content that is there stays with its author, and its id with it. -/
theorem follows (hl : n.ledger.Coherent) (hm : Moves s m n returned n') :
    n.ledger.Follows n'.ledger := by
  cases returned with
  | false =>
    rw [hm.ledger_eq_of_failed hl]
    exact .refl hl
  | true =>
    cases m with
    | upsert c =>
      obtain ⟨id, hchanged, -⟩ := hm.upserted hl
      exact hchanged.follows
    | remove a =>
      obtain ⟨c, -, -, hchanged⟩ := hm.removed hl
      exact hchanged.follows
    | applyVote a rshares votes =>
      obtain ⟨c, -, hchanged, -⟩ := hm.voted hl
      exact hchanged.follows
    | setCashout a cashout =>
      obtain ⟨c, -, -, hchanged⟩ := hm.moved hl
      exact hchanged.follows
    | closePayout a =>
      obtain ⟨c, -, -, hchanged⟩ := hm.closed hl
      exact hchanged.follows
    | apply op =>
      rw [hm.ledger_eq]
      exact .refl hl

end Node.Moves

theorem Filed.Holds.move (h : F.Holds n) (hm : Node.Moves s m n returned n') :
    (F.after s n.ledger n'.ledger returned m).Holds n' := by
  have hfollows := hm.follows h.ledger
  cases m with
  | upsert c => exact h.reread hfollows (hm.catalog_eq nofun)
  | remove a => exact h.reread hfollows (hm.catalog_eq nofun)
  | applyVote a rshares votes => exact h.reread hfollows (hm.catalog_eq nofun)
  | setCashout a cashout => exact h.reread hfollows (hm.catalog_eq nofun)
  | closePayout a => exact h.reread hfollows (hm.catalog_eq nofun)
  | apply op =>
    refine hm.of_yields
      (P := fun returned n' => (F.after s n.ledger n'.ledger returned (.apply op)).Holds n') ?_
    simp only [Node.run, Node.onCatalog, Update.yields_bind, Update.yields_pure, Update.yields_get,
      Update.yields_within]
    refine (Catalog.yields_apply (s := s) h.catalog op).mono ?_ ?_
    · exact fun _ d hd => h.of_effect hd.1 hd.2
    · exact fun _ d hd => h.of_effect hd.2.1 hd.2.2

theorem History.holds (h : History s n F) : F.Holds n := by
  induction h with
  | start => exact Filed.Holds.start
  | move _ hm ih => exact ih.move hm

theorem Filed.Holds.topicsOfContent (h : F.Holds n) (id : Nat) :
    n.catalog.topicsOfContent id = F.topics id := by
  apply Std.ExtTreeSet.ext_mem
  intro topic
  rw [Catalog.mem_topicsOfContent h.catalog]
  exact h.names.names id topic

theorem Filed.Holds.owner_eq (h : F.Holds n) {id : Nat} {e : Entry} {content : Content}
    (he : n.catalog.table.get? id = some e) (hc : n.ledger.byId? e.content = some content) :
    e.author = content.author := by
  have howner := h.names.owner e.content e.author e.topic ⟨id, e, he, rfl, rfl, rfl⟩
  exact Option.some.inj (howner.symm.trans (h.author e.content content hc))

/-- The names of content are those that the history tells, each of one entry. -/
theorem History.names_eq (h : History s n F) (id : Nat) :
    n.catalog.topicsOfContent id = F.topics id ∧
      ((n.catalog.entriesOfContent id).map (·.topic)).Nodup :=
  ⟨h.holds.topicsOfContent id, Catalog.nodup_topics_of_entries h.holds.catalog id⟩

namespace Node

def returns (s : Settings) (m : Move) (n : Node) : Bool :=
  match run s m n with
  | .ok .. => true
  | .error .. => false

def next (s : Settings) (m : Move) (n : Node) : Node :=
  match run s m n with
  | .ok _ n' | .error _ n' => n'

theorem moves_next (h : returns s m n = true) : Moves s m n true (next s m n) := by
  unfold returns at h
  unfold Moves next
  cases hrun : run s m n with
  | ok u n' => exact ⟨rfl, rfl⟩
  | error halt n' => simp [hrun] at h

end Node

theorem History.exists_next (h : ∃ F, History s n F) (hreturns : n.returns s m = true) :
    ∃ F, History s (n.next s m) F := by
  obtain ⟨F, hF⟩ := h
  exact ⟨_, hF.move (Node.moves_next hreturns)⟩

namespace Node

/-- Where moves lead that are taken in order. -/
def nexts (s : Settings) : List Move → Node → Node
  | [], n => n
  | m :: ms, n => nexts s ms (n.next s m)

def returnsAll (s : Settings) : List Move → Node → Bool
  | [], _ => true
  | m :: ms, n => n.returns s m && returnsAll s ms (n.next s m)

end Node

theorem History.exists_nexts {ms : List Move} (h : ∃ F, History s n F)
    (hreturns : n.returnsAll s ms = true) : ∃ F, History s (n.nexts s ms) F := by
  induction ms generalizing n with
  | nil => exact h
  | cons m ms ih =>
    simp only [Node.returnsAll, Bool.and_eq_true] at hreturns
    exact ih (History.exists_next h hreturns.1) hreturns.2

def rootPost (category : String) : Content :=
  { (Content.post ⟨"alice", "morning"⟩ .epoch).inCategory category with cashoutTime := some .last }

def rootWritten : Node := Node.next {} (.upsert (rootPost "news")) {}

def rootFiled : Node := rootWritten.next {} (.apply (.comment ⟨"alice", "morning"⟩ "" "news"))

theorem exists_history_rootFiled : ∃ F, History {} rootFiled F := by
  have hwritten : Node.Moves {} _ {} true rootWritten := Node.moves_next (by decide +kernel)
  have hfiled : Node.Moves {} _ rootWritten true rootFiled := Node.moves_next (by decide +kernel)
  exact ⟨_, (History.start.move hwritten).move hfiled⟩

theorem History.names_eq_rootFiled :
    ∃ F, History {} rootFiled F ∧ rootFiled.catalog.topicsOfContent 1 = F.topics 1 ∧
      ((rootFiled.catalog.entriesOfContent 1).map (·.topic)).Nodup ∧
      (rootFiled.catalog.topicsOfContent 1).toList = [.tag "news"] := by
  have hwritten : Node.Moves {} _ {} true rootWritten := Node.moves_next (by decide +kernel)
  have hfiled : Node.Moves {} _ rootWritten true rootFiled := Node.moves_next (by decide +kernel)
  have hh := (History.start.move hwritten).move hfiled
  obtain ⟨hnames, hnodup⟩ := History.names_eq hh 1
  exact ⟨_, hh, hnames, hnodup, by decide +kernel⟩

end TagCatalog
