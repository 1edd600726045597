import TagCatalog.Proofs.Course
import TagCatalog.Proofs.EntryEdits
import TagCatalog.Proofs.VoteSums

/-! Deleting what the ledger has no more. It returns, takes out the entries of content that an author
had and has no more, counts them, and finds nothing to do a second time. -/

namespace TagCatalog

/-- Content of an author that the ledger once had and has no more. -/
def Filed.Lost (F : Filed) (l : Ledger) (author : String) (id : Nat) : Prop :=
  l.byId? id = none ∧ F.author id = some author

namespace Catalog

variable {s : Settings} {source : ContentSource} {c d : Catalog} {author : String}

theorem length_orphans (h : c.Sound) :
    ((c.table.ofAuthor author).filter fun p => (source.byId? p.content).isNone).length =
      c.table.toList.countP (isOrphan source author) := by
  have hcount := h.table.countP_toList (p := isOrphan source author) (nodup_orphans h author)
    fun _ => mem_orphans h
  rw [hcount, List.length_map]

theorem yields_sweep_count (h : c.Sound) :
    Update.Yields (sweep source author) c
      (fun r _ => r = { removed := c.table.toList.countP (isOrphan source author) })
      fun _ _ => True := by
  simp only [sweep, Update.yields_bind, Update.yields_get, Update.yields_pure, length_orphans h]
  exact .of_forall (fun _ _ => trivial) fun _ _ => trivial

theorem noOverflow_sweep (h : c.Sound) (hsize : c.table.size ≤ 2 ^ 32) :
    Update.NoOverflow (sweep source author) c := by
  simp only [sweep, Update.noOverflow_bind, Update.noOverflow_get, Update.yields_get,
    Update.noOverflow_pure, true_and]
  exact ⟨noOverflow_withdrawAll h hsize _ _, .of_forall (fun _ _ => trivial) fun _ _ => trivial⟩

theorem sweep_of_none (h : c.Sound)
    (hnone : ∀ id e, c.table.get? id = some e → isOrphan source author e = false) :
    sweep source author c = .ok {} c := by
  have hcount : c.table.toList.countP (isOrphan source author) = 0 := by
    rw [List.countP_eq_zero]
    intro e he
    obtain ⟨id, hid⟩ := EntryTable.mem_toList.mp he
    simp [hnone id e hid]
  have hnil : (c.table.ofAuthor author).filter (fun p => (source.byId? p.content).isNone) = [] := by
    rw [← List.length_eq_zero_iff, length_orphans h, hcount]
  simp only [sweep, bind, EStateM.bind, get, getThe, MonadStateOf.get, EStateM.get, hnil]
  rfl

/-- What a deletion has done that returned with a report. -/
structure Swept (F : Filed) (l : Ledger) (author : String) (c d : Catalog) (r : Report) : Prop where
  cleared : ∀ id, F.Lost l author id → d.entriesOfContent id = []
  entries : ∀ id e, d.table.get? id = some e ↔
    c.table.get? id = some e ∧ ¬ F.Lost l author e.content
  report : r = { removed := c.table.toList.countP fun e => (d.table.get? e.id).isNone }
  again : ∀ s permlink, apply s l.source (.delete ⟨author, permlink⟩) d = .ok {} d

end Catalog

variable {s : Settings} {n n' : Node} {F : Filed}

theorem Filed.Holds.isOrphan_iff (h : F.Holds n) {l : Ledger} {author : String} {id : Nat} {e : Entry}
    (he : n.catalog.table.get? id = some e) :
    Catalog.isOrphan l.source author e = true ↔ F.Lost l author e.content := by
  have howner := h.names.owner e.content e.author e.topic ⟨id, e, he, rfl, rfl, rfl⟩
  simp only [Catalog.isOrphan, Bool.and_eq_true, decide_eq_true_eq, Option.isNone_iff_eq_none,
    Ledger.source, Filed.Lost, howner, Option.some.injEq]
  exact and_comm

theorem Filed.Holds.swept (h : F.Holds n) {l : Ledger} {author : String} {d : Catalog} {r : Report}
    (hd : Catalog.sweep l.source author n.catalog = .ok r d) :
    Catalog.Swept F l author n.catalog d r := by
  obtain ⟨hsound, hthin⟩ := (Catalog.yields_sweep (s := {}) h.catalog author).of_ok hd
  have hreport := (Catalog.yields_sweep_count h.catalog).of_ok hd
  have hget (id : Nat) : d.table.get? id =
      (n.catalog.table.get? id).filter fun e => !Catalog.isOrphan l.source author e := by
    refine (hthin.2 id).trans ?_
    exact Option.map_id' ..
  have hentries (id : Nat) (e : Entry) : d.table.get? id = some e ↔
      n.catalog.table.get? id = some e ∧ ¬ F.Lost l author e.content := by
    rw [hget, Option.filter_eq_some_iff]
    refine and_congr_right fun he => ?_
    rw [Bool.not_eq_true', ← Bool.not_eq_true, h.isOrphan_iff he]
  refine ⟨fun id hlost => ?_, hentries, ?_, fun s permlink => ?_⟩
  · rw [List.eq_nil_iff_forall_not_mem]
    intro e he
    obtain ⟨⟨i, hi⟩, rfl⟩ := (Catalog.mem_entriesOfContent hsound).mp he
    exact ((hentries i e).mp hi).2 hlost
  · rw [hreport]
    refine congrArg (fun removed => ({ removed } : Report)) (List.countP_congr fun e he => ?_)
    obtain ⟨id, hid⟩ := EntryTable.mem_toList.mp he
    rw [h.catalog.table.id_eq id e hid, hget, hid]
    cases horphan : Catalog.isOrphan l.source author e <;> simp [Option.filter, horphan]
  · refine Catalog.sweep_of_none hsound fun id e he => ?_
    rw [hget, Option.filter_eq_some_iff, Bool.not_eq_true'] at he
    exact he.2

theorem Ledger.Coherent.exists_removed {l : Ledger} (h : l.Coherent) {a : Address} {c : Content}
    (hc : l.at? a = some c) :
    ∃ l', Ledger.remove a l = .ok c l' ∧ l'.byId? c.id = none ∧ Ledger.Changed c.id l l' := by
  have hyields : Update.Yields (Ledger.remove a) l
      (fun b l' => l.at? a = some b ∧ l'.byId? b.id = none ∧ Ledger.Changed b.id l l')
      fun _ _ => False :=
    (Ledger.yields_remove h a).mono (fun _ _ hh => hh) fun _ _ hh => by simp [hc] at hh
  have hno : Update.NoOverflow (Ledger.remove a) l := by
    simp only [Ledger.remove, Ledger.idOf, Update.noOverflow_bind, Update.noOverflow_get,
      Update.yields_bind, Update.yields_get, Update.noOverflow_require, Update.noOverflow_modify,
      Update.yields_modify, true_and]
    refine .of_forall (fun _ _ => .of_forall (fun b _ => ?_) fun _ _ => trivial) fun _ _ => trivial
    split
    · exact Update.noOverflow_pure _
    · simp
  obtain ⟨b, l', hl', hat, hnone, hchanged⟩ := hyields.exists_ok hno
  obtain rfl := Option.some.inj (hc.symm.trans hat)
  exact ⟨l', hl', hnone, hchanged⟩

/-- Content that is removed from the ledger leaves no trace once its author has a deletion. No other
entry changes, and content that is written at its address later finds nothing of it, under an id of
its own. -/
theorem Course.deletion (h : Course n F) {a : Address} {record : Content}
    (hrecord : n.ledger.at? a = some record) (permlink : String) (s : Settings) :
    ∃ l, Ledger.remove a n.ledger = .ok record l ∧ F.Lost l a.author record.id ∧
      ((∃ r d, Catalog.apply s l.source (.delete ⟨a.author, permlink⟩) n.catalog = .ok r d ∧
          Catalog.Swept F l a.author n.catalog d r) ∨
        2 ^ 32 < n.catalog.table.size ∧
          ∃ d, Catalog.apply s l.source (.delete ⟨a.author, permlink⟩) n.catalog =
            .error .overflow d) ∧
      ∀ n', Node.Later { n with ledger := l } n' → ∀ c id l', c.address = a →
        n'.ledger.at? a = none → Ledger.upsert c n'.ledger = .ok id l' →
        record.id < id ∧ n'.catalog.entriesOfContent id = [] := by
  have hh := h.holds
  obtain ⟨hstored, haddress⟩ := hh.ledger.at?_eq_some.mp hrecord
  obtain ⟨l, hremove, hgone, hchanged⟩ := hh.ledger.exists_removed hrecord
  have hwriter : F.author record.id = some a.author := by
    rw [hh.author _ _ hstored, ← haddress]
    rfl
  refine ⟨l, hremove, ⟨hgone, hwriter⟩, ?_, ?_⟩
  · have hsweep : Update.Yields (Catalog.sweep l.source a.author) n.catalog _ _ :=
      Catalog.yields_sweep (s := s) hh.catalog a.author
    rcases hsweep.returns_or_overflows with ⟨r, d, hd, -⟩ | ⟨d, hd⟩
    · exact .inl ⟨r, d, hd, hh.swept hd⟩
    · refine .inr ⟨?_, d, hd⟩
      by_contra hsize
      exact Catalog.noOverflow_sweep hh.catalog (Nat.le_of_not_lt hsize) d hd
  · intro n' hlater c id l' hc hnone hupsert
    have hmove : Node.Moves s (.remove a) n true { n with ledger := l } := by
      simp only [Node.Moves, Node.run, Node.onLedger, Update.within, bind, EStateM.bind, hremove]
      exact ⟨trivial, rfl⟩
    obtain ⟨F', hcourse, hle⟩ := (h.move hmove).later hlater
    obtain ⟨rfl, hempty⟩ := hcourse.holds.upsert_new (hc ▸ hnone) hupsert
    have hlt := hh.ledger.lt_nextId _ _ hstored
    have hnext := hchanged.nextId_le
    refine ⟨?_, hempty⟩
    change l.nextId ≤ n'.ledger.nextId at hle
    omega

theorem Course.deletion_rootFiled :
    ∃ F l r d, Course rootFiled F ∧
      rootFiled.ledger.at? ⟨"alice", "morning"⟩ = some { rootPost "news" with id := 1 } ∧
      Ledger.remove ⟨"alice", "morning"⟩ rootFiled.ledger = .ok { rootPost "news" with id := 1 } l ∧
      F.Lost l "alice" 1 ∧ rootFiled.catalog.table.size = 1 ∧
      Catalog.apply {} l.source (.delete ⟨"alice", "morning"⟩) rootFiled.catalog = .ok r d ∧
      Catalog.Swept F l "alice" rootFiled.catalog d r ∧
      ∀ n', Node.Later { rootFiled with ledger := l } n' → ∀ c id l',
        c.address = ⟨"alice", "morning"⟩ → n'.ledger.at? ⟨"alice", "morning"⟩ = none →
        Ledger.upsert c n'.ledger = .ok id l' →
        1 < id ∧ n'.catalog.entriesOfContent id = [] := by
  obtain ⟨F, hF⟩ := exists_history_rootFiled
  have hrecord : rootFiled.ledger.at? ⟨"alice", "morning"⟩ =
      some { rootPost "news" with id := 1 } := by decide +kernel
  have hsize : rootFiled.catalog.table.size = 1 := by decide +kernel
  obtain ⟨l, hremove, hlost, ⟨r, d, hd, hswept⟩ | ⟨hlarge, -⟩, hlater⟩ :=
    Course.deletion hF.course hrecord "morning" {}
  · exact ⟨F, l, r, d, hF.course, hrecord, hremove, hlost, hsize, hd, hswept, hlater⟩
  · omega

end TagCatalog
