import TagCatalog.Proofs.Effect

/-! Catalogs that calls of upkeep lead to, each over content of its own. All of them are sound, so
that none of the faults of a broken catalog is ever reported. -/

namespace TagCatalog

namespace Catalog

inductive Call
  | classify (a : Address)
  | refresh (a : Address)
  | withdraw (a : Address)
  | withdrawEntry (id : Nat)
  | sweep (author : String)
  | reward (a : Address) (payout : Nat)
  | apply (op : Operation)

def Call.run (s : Settings) (source : ContentSource) : Call → Update Catalog Unit
  | .classify a => do let _ ← Catalog.classify s source a
  | .refresh a => do let _ ← Catalog.refresh s source a
  | .withdraw a => do let _ ← Catalog.withdraw s source a
  | .withdrawEntry id => Catalog.withdrawEntry id
  | .sweep author => do let _ ← Catalog.sweep source author
  | .reward a payout => do let _ ← Catalog.reward s source a payout
  | .apply op => do let _ ← Catalog.apply s source op

/-- One call leads from one catalog to the other, whether it returns or reports a fault. -/
def Step (c d : Catalog) : Prop :=
  ∃ s source call, Update.after? (Call.run s source call) c = some d

abbrev Reachable (c : Catalog) : Prop := Relation.ReflTransGen Step .empty c

variable {c d : Catalog}

/-- What a call can do to the entries. -/
inductive Altered (c d : Catalog) : Prop
  | kept (h : d = c)
  | reclassified {s : Settings} {source : ContentSource} {content : Content} {parent : Option Nat}
      (h : Reclassified s content parent (source.classify s content).topics c d)
  | thinned {s : Settings} {keep : Entry → Bool} {path : List Content}
      (h : Thinned s keep path c d)

theorem Effect.altered {s : Settings} {source : ContentSource} {returned : Bool} {op : Operation}
    (h : Effect s source returned op c d) : c.Altered d := by
  cases op with
  | comment a _ _ =>
    simp only [Effect] at h
    split at h
    · split at h
      · exact .reclassified h
      · exact .kept h
    · exact .kept h
  | vote _ a _ => exact .thinned (Refreshed.thinned h)
  | reward a _ => exact .thinned (Refreshed.thinned h)
  | payoutUpdate a =>
    simp only [Effect] at h
    split at h
    · split at h
      · exact .thinned h.thinned
      · exact .thinned h
    · exact .kept h
  | delete a => exact .thinned h
  | transfer => exact .kept h
  | other => exact .kept h

theorem yields_withdrawEntry_thinned (h : c.Sound) (s : Settings) {id : Nat} {e : Entry}
    (he : c.table.get? id = some e) :
    Update.Yields (withdrawEntry id) c
      (fun _ d => d.Sound ∧ Thinned s (fun a => a.id ≠ id) [] c d) fun _ _ => False := by
  refine (yields_withdrawEntry h he).imp ?_
  intro _ d hh
  obtain ⟨hd, hnext, hentries⟩ := hh
  refine ⟨hd, hnext, fun i => ?_⟩
  rw [EntryTable.get?, hentries, getElem?_erase_eq, ← EntryTable.get?]
  cases hi : c.table.get? i with
  | none => simp
  | some a =>
    have hid := h.table.id_eq i a hi
    by_cases hsame : id = i
    · simp [Option.filter, hid, hsame]
    · simp [Option.filter, hid, hsame, Ne.symm hsame, Entry.refreshedBy]

/-- Every call leaves a sound catalog, and the entries altered in one of the known ways. -/
theorem Call.yields_altered (h : c.Sound) (s : Settings) (source : ContentSource) (call : Call) :
    Update.Yields (call.run s source) c (fun _ d => d.Sound ∧ c.Altered d)
      fun _ d => d.Sound ∧ c.Altered d := by
  cases call with
  | classify a =>
    simp only [run, Update.yields_bind, Update.yields_pure]
    refine (yields_classify h a).mono ?_ ?_
    · intro _ d hh
      obtain ⟨hd, content, -, -, heffect⟩ := hh
      exact ⟨hd, .reclassified heffect⟩
    · intro f d hh
      obtain ⟨rfl, -⟩ := hh
      exact ⟨h, .kept rfl⟩
  | refresh a =>
    simp only [run, Update.yields_bind, Update.yields_pure]
    exact (yields_refresh h a).mono (fun _ _ hd => ⟨hd.1, .thinned hd.2.1.thinned⟩)
      fun _ _ hd => ⟨hd.2.1, .thinned hd.2.2.thinned⟩
  | withdraw a =>
    simp only [run, Update.yields_bind, Update.yields_pure]
    refine (yields_withdraw h a).mono ?_ ?_
    · intro _ d hh
      obtain ⟨hd, content, -, hthin, -⟩ := hh
      exact ⟨hd, .thinned hthin⟩
    · intro _ d hh
      obtain ⟨-, hd, hthin⟩ := hh
      split at hthin
      · exact ⟨hd, .kept hthin⟩
      · exact ⟨hd, .thinned hthin⟩
  | withdrawEntry id =>
    cases he : c.table.get? id with
    | none =>
      have hm := withdrawEntry_of_none he
      simpa only [Update.Yields, run, hm] using ⟨h, .kept rfl⟩
    | some e =>
      exact (yields_withdrawEntry_thinned h s he).mono (fun _ _ hd => ⟨hd.1, .thinned hd.2⟩)
        fun _ _ => False.elim
  | sweep author =>
    simp only [run, Update.yields_bind, Update.yields_pure]
    exact (yields_sweep (s := s) h author).mono (fun _ _ hd => ⟨hd.1, .thinned hd.2⟩)
      fun _ _ => False.elim
  | reward a payout =>
    simp only [run, Update.yields_bind, Update.yields_pure]
    exact (yields_reward h a payout).mono (fun _ _ hd => ⟨hd.1, .thinned hd.2.1.thinned⟩)
      fun _ _ hd => ⟨hd.2.1, .thinned hd.2.2.thinned⟩
  | apply op =>
    simp only [run, Update.yields_bind, Update.yields_pure]
    exact (yields_apply h op).mono (fun _ _ hd => ⟨hd.1, hd.2.altered⟩)
      fun _ _ hd => ⟨hd.2.1, hd.2.2.altered⟩

theorem Step.sound_altered (h : c.Sound) (hstep : Step c d) : d.Sound ∧ c.Altered d := by
  obtain ⟨s, source, call, hd⟩ := hstep
  exact (call.yields_altered h s source).of_after? hd

theorem Step.sound (h : c.Sound) (hstep : Step c d) : d.Sound := (hstep.sound_altered h).1

theorem Reachable.sound (h : Reachable c) : c.Sound := by
  induction h with
  | refl => exact Sound.empty
  | tail _ hstep ih => exact hstep.sound ih

theorem Reachable.yields_apply (h : Reachable c) (s : Settings) (source : ContentSource)
    (op : Operation) :
    Update.Yields (apply s source op) c (fun _ d => Reachable d) fun _ d => Reachable d := by
  have hstep := Update.yields_after? (Call.run s source (.apply op)) c
  simp only [Call.run, Update.yields_bind, Update.yields_pure] at hstep
  refine hstep.mono ?_ ?_
  · exact fun _ d hd => h.tail ⟨s, source, .apply op, hd⟩
  · exact fun _ d hd => h.tail ⟨s, source, .apply op, hd⟩

def loneSource : ContentSource :=
  let post := { Content.post ⟨"alice", "morning"⟩ .epoch with id := 1, cashoutTime := some .last }
  ⟨fun a => if a = post.address then some post else none,
    fun id => if id = post.id then some post else none⟩

def loneCatalog : Catalog :=
  (Update.after? (Call.run {} loneSource (.classify ⟨"alice", "morning"⟩)) .empty).getD .empty

theorem reachable_of_call {s : Settings} {source : ContentSource} {call : Call}
    (h : (Update.after? (call.run s source) .empty).isSome = true) :
    Reachable ((Update.after? (call.run s source) .empty).getD .empty) := by
  obtain ⟨c, hc⟩ := Option.isSome_iff_exists.mp h
  rw [hc, Option.getD_some]
  exact .single ⟨s, source, call, hc⟩

theorem reachable_loneCatalog : Reachable loneCatalog := reachable_of_call (by decide +kernel)

/-- Upkeep faults when the ledger lacks content or a reply chain is too long, and for no other
reason. An entry can be withdrawn by its id just as long as it is there. -/
theorem faults_of_reachable (h : Reachable c) (s : Settings) (source : ContentSource) :
    (∀ op f d, apply s source op c = .error (.fault f) d →
      (∃ a, source.at? a = none ∧ f = .contentNotFound a) ∨ f = .depthExceeded s.maxReplyDepth) ∧
    (∀ a f d, apply s source (.delete a) c ≠ .error (.fault f) d) ∧
    ∀ id, (∀ f d, withdrawEntry id c = .error (.fault f) d → f = .entryMissing id) ∧
      ((∃ f d, withdrawEntry id c = .error (.fault f) d) ↔ c.table.get? id = none) := by
  have hsound := h.sound
  refine ⟨?_, ?_, fun id => ?_⟩
  · intro op f d hf
    exact ((yields_apply hsound op).of_fault hf).1
  · intro a f d hf
    exact ((yields_sweep (s := s) hsound a.author).of_fault hf).elim
  · cases he : c.table.get? id with
    | none =>
      have hm := withdrawEntry_of_none he
      refine ⟨?_, fun _ => rfl, fun _ => ⟨_, _, hm⟩⟩
      intro f d hf
      obtain ⟨hfault, -⟩ := EStateM.Result.error.inj (hm.symm.trans hf)
      exact (Halt.fault.inj hfault).symm
    | some e =>
      have hl := yields_withdrawEntry hsound he
      refine ⟨fun f d hf => (hl.of_fault hf).elim, ?_, by simp⟩
      intro hh
      obtain ⟨f, d, hf⟩ := hh
      exact (hl.of_fault hf).elim

theorem faults_of_reachable_lone :
    let stray : Address := ⟨"bob", "evening"⟩
    let vote := apply {} loneSource (.vote "carol" stray 1) loneCatalog
    vote = .error (.fault (.contentNotFound stray)) loneCatalog ∧
      ((∃ a, loneSource.at? a = none ∧ Fault.contentNotFound stray = .contentNotFound a) ∨
        Fault.contentNotFound stray = .depthExceeded 255) := by
  intro stray vote
  have hf : vote = .error (.fault (.contentNotFound stray)) loneCatalog := rfl
  exact ⟨hf, (faults_of_reachable reachable_loneCatalog {} loneSource).1 _ _ _ hf⟩

end Catalog

end TagCatalog
