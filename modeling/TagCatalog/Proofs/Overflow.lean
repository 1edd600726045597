import TagCatalog.Proofs.FormedSums

/-! Which sums overflow in a call of upkeep: where there are fewer than `2 ^ 32` entries on the way,
none of counts and none of votes, and a sum of weights just if that of the root entries does. -/

namespace TagCatalog

namespace Catalog

open Update

variable {s : Settings} {source : ContentSource} {c d : Catalog} {changes : List Change}

section

variable {content parent : Option Nat} {written : Content}

theorem file_not_mem_refreshing (e : Entry) (path : List Content) :
    Change.file e ∉ c.refreshing path := by
  simp [refreshing]

theorem file_not_mem_withdrawing (e : Entry) (a : Address) :
    Change.file e ∉ c.withdrawing s source a := by
  unfold withdrawing
  cases source.at? a with
  | none => simp
  | some content => simp [file_not_mem_refreshing]

theorem file_not_mem_rewarding (e : Entry) (a : Address) (payout : Nat) :
    Change.file e ∉ c.rewarding s source a payout := by
  unfold rewarding
  cases source.refusal? s a with
  | some f => simp [file_not_mem_refreshing]
  | none =>
    cases source.at? a with
    | none => simp [file_not_mem_refreshing]
    | some content => simp [file_not_mem_refreshing]

theorem named_of_mem_classifying {e : Entry} {a : Address}
    (he : Change.file e ∈ c.classifying s source a) : e.topic ≠ .language "" := by
  unfold classifying at he
  cases hcontent : (source.at? a).filter (admits source) with
  | none => simp [hcontent] at he
  | some content =>
    rw [hcontent, Option.elim_some, reclassifying, List.mem_append] at he
    rcases he with he | he
    · obtain ⟨t, ht, hplace⟩ := List.mem_map.mp he
      unfold placing at hplace
      split at hplace
      · cases hplace
      · obtain rfl := Change.file.inj hplace
        exact Classification.ne_language_empty ht
    · simp at he

end

theorem Call.named_of_mem_changes {call : Call} {e : Entry}
    (he : .file e ∈ call.changes s source c) : e.topic ≠ .language "" := by
  cases call with
  | classify a => exact named_of_mem_classifying he
  | refresh a => exact absurd he (file_not_mem_refreshing e _)
  | withdraw a => exact absurd he (file_not_mem_withdrawing e a)
  | withdrawEntry id =>
    simp only [changes] at he
    split at he
    · simp at he
    · simp at he
  | sweep author => simp [changes, sweeping] at he
  | reward a payout => exact absurd he (file_not_mem_rewarding e a payout)
  | apply op =>
    cases op with
    | comment a _ _ => exact named_of_mem_classifying he
    | vote _ a _ => exact absurd he (file_not_mem_refreshing e _)
    | reward a payout => exact absurd he (file_not_mem_rewarding e a payout)
    | payoutUpdate a =>
      simp only [changes] at he
      split at he
      · exact absurd he (file_not_mem_refreshing e _)
      · exact absurd he (file_not_mem_withdrawing e a)
    | delete a => simp [changes, sweeping] at he
    | transfer => simp [changes] at he
    | other => simp [changes] at he

theorem requireEntry_of_none {id : Nat} (he : c.table.get? id = none) :
    requireEntry id c = .error (.fault (.entryMissing id)) c := by
  simp only [requireEntry, bind, EStateM.bind, get, getThe, MonadStateOf.get, EStateM.get, he]
  rfl

/-- A change of an entry that is not there is at fault, and so is a second filing. -/
theorem Change.due_of_faultless (s : Settings) (h : c.Sound) {change : Change}
    (hnamed : ∀ e, change = .file e → e.topic ≠ .language "")
    (hfaultless : ∀ f d, change.run s c ≠ .error (.fault f) d) : change.Due c := by
  have hlive (id : Nat) (k : Entry → Update Catalog Unit)
      (hrun : change.run s c = (requireEntry id >>= k) c) : ∃ e, c.table.get? id = some e := by
    refine Option.ne_none_iff_exists'.mp fun he => hfaultless (.entryMissing id) c ?_
    rw [hrun]
    simp only [bind, EStateM.bind, requireEntry_of_none he]
  cases change with
  | file e =>
    refine ⟨hnamed e rfl, fun id a ha hfiling => ?_⟩
    have htaken := (h.table.contains_filing_iff e.filing).mpr ⟨id, a, ha, hfiling⟩
    refine hfaultless (.duplicateEntry e.topic e.content) c ?_
    simp only [run, Catalog.file, bind, EStateM.bind, onTable, within, EntryTable.insert_eq, htaken,
      if_true]
  | refresh content id => exact hlive id _ rfl
  | withdraw id => exact hlive id _ rfl
  | credit payout id => exact hlive id _ rfl

theorem Change.due_head (h : c.Sound) {change : Change} {rest : List Change}
    (hnamed : ∀ e, .file e ∈ change :: rest → e.topic ≠ .language "")
    (hfaultless : ∀ f d, runAll s (change :: rest) c ≠ .error (.fault f) d) : change.Due c := by
  refine due_of_faultless s h (fun e he => hnamed e (by simp [he])) fun f d hf => ?_
  refine hfaultless f d ?_
  simp only [runAll_cons, bind, EStateM.bind, hf]

/-- Along changes none of which is at fault each is due, on a catalog that is sound. -/
theorem due_of_runAll (h : c.Sound) {done rest : List Change} {change : Change}
    (hnamed : ∀ e, .file e ∈ done ++ change :: rest → e.topic ≠ .language "")
    (hfaultless : ∀ f d, runAll s (done ++ change :: rest) c ≠ .error (.fault f) d)
    (hd : runAll s done c = .ok ⟨⟩ d) : d.Sound ∧ change.Due d := by
  induction done generalizing c with
  | nil =>
    obtain rfl : c = d := by simpa [runAll, pure, EStateM.pure] using hd
    exact ⟨h, Change.due_head h hnamed hfaultless⟩
  | cons x done ih =>
    -- The first change is due and returns, so that it leaves a sound catalog to the others.
    have hdue := Change.due_head h hnamed hfaultless
    cases hx : x.run s c with
    | error halt u => simp [runAll_cons, bind, EStateM.bind, hx] at hd
    | ok _ u =>
      obtain ⟨hu, -⟩ := (Change.yields_run h hdue).of_ok hx
      refine ih hu (fun e he => hnamed e (List.mem_cons_of_mem x he)) (fun f v hf => ?_) ?_
      · exact hfaultless f v (by rw [List.cons_append, runAll_cons, bind_of_ok hx, hf])
      · rwa [runAll_cons, bind_of_ok hx] at hd

theorem runAll_overflows_iff : (∃ d, runAll s changes c = .error .overflow d) ↔
    ∃ done change rest d, changes = done ++ change :: rest ∧ runAll s done c = .ok ⟨⟩ d ∧
      ∃ d', change.run s d = .error .overflow d' := by
  constructor
  · intro hh
    obtain ⟨d, hd⟩ := hh
    induction changes generalizing c with
    | nil => cases hd
    | cons x changes ih =>
      rw [runAll_cons] at hd
      cases hx : x.run s c with
      | ok _ u =>
        rw [bind_of_ok hx] at hd
        obtain ⟨done, change, rest, u', rfl, hdone, hover⟩ := ih hd
        exact ⟨x :: done, change, rest, u', rfl, by rw [runAll_cons, bind_of_ok hx, hdone], hover⟩
      | error halt u =>
        obtain ⟨rfl, rfl⟩ : halt = .overflow ∧ u = d := by
          simpa [bind, EStateM.bind, hx] using hd
        exact ⟨[], x, changes, c, rfl, rfl, u, hx⟩
  · intro hh
    obtain ⟨done, change, rest, d, rfl, hdone, d', hover⟩ := hh
    refine ⟨d', ?_⟩
    rw [runAll_append, bind_of_ok hdone, runAll_cons]
    simp only [bind, EStateM.bind, hover]

theorem table_left_onTotals (m : Update Totals Unit) (c : Catalog) :
    (left (onTotals m) c).table = c.table := by
  unfold left onTotals within
  cases m c.totals with
  | ok a t => rfl
  | error halt t => rfl

theorem table_left_bind {m : Update Catalog Unit} {k : Unit → Update Catalog Unit}
    (hm : (left m c).table = c.table) (hk : ∀ d, (left (k ⟨⟩) d).table = d.table) :
    (left (m >>= k) c).table = c.table := by
  simp only [left, bind, EStateM.bind] at hm hk ⊢
  cases hrun : m c with
  | ok a d =>
    rw [hrun] at hm
    exact (hk d).trans hm
  | error halt d =>
    rw [hrun] at hm
    exact hm

theorem table_left_count (e : Entry) (c : Catalog) : (left (count e) c).table = c.table := by
  refine table_left_bind (table_left_onTotals _ c) fun d => ?_
  refine table_left_bind (table_left_onTotals _ d) fun d' => ?_
  split
  · exact table_left_onTotals _ d'
  · rfl

/-- A filing leaves one entry more even where it overflows, and other changes make none. -/
theorem Change.length_entries_le (h : c.Sound) {change : Change} (hdue : change.Due c) :
    (change.entries s c).length ≤ max c.table.size (left (change.run s) c).table.size := by
  have hlength : c.table.toList.length = c.table.size := c.table.length_toList
  cases change with
  | file e =>
    obtain ⟨u, hentries, hfile⟩ := file_eq_count h hdue.2
    have hleft : (left (Catalog.file e) c).table = u := by
      rw [left, hfile]
      exact table_left_count _ { c with table := u }
    have hperm := values_insert_perm h.table.get?_nextId { e with id := c.table.nextId }
    rw [← hentries] at hperm
    have hu : u.toList.length = u.size := u.length_toList
    have hsize : u.toList.length = (entries s c (.file e)).length := hperm.length_eq
    rw [run, hleft]
    omega
  | refresh content id =>
    rw [entries, List.length_map]
    omega
  | withdraw id =>
    have hle := List.length_filter_le (fun e : Entry => e.id ≠ id) c.table.toList
    rw [entries]
    omega
  | credit payout id =>
    rw [entries]
    omega

/-- How a change overflows: by a sum that does not fit, which is none of counts or votes, and one of
weights just if the root entries weigh that much once it is made. -/
structure Change.Exact (s : Settings) (c : Catalog) (change : Change) : Prop where
  entries : ∀ d, change.run s c = .ok ⟨⟩ d → d.table.toList.Perm (change.entries s c)
  overflows : (∃ d, change.run s c = .error .overflow d) ↔ ∃ x ∈ change.sums s c, ¬x.Fits
  tallies : ∀ x ∈ change.sums s c,
    x.aggregate ∈ [.topPosts, .comments, .netVotes, .posts] → x.Fits
  weights : ∀ x ∈ change.sums s c, x.aggregate = .childrenRshares2 →
    (¬x.Fits ↔ 2 ^ 128 ≤ rootWeight x.topic (change.entries s c))

theorem Change.exact (h : c.Sound) {change : Change} (hdue : change.Due c)
    (hsize : c.table.size < 2 ^ 32) (hleft : (left (change.run s) c).table.size < 2 ^ 32) :
    change.Exact s c := by
  have hentries : (change.entries s c).length < 2 ^ 32 :=
    (length_entries_le h hdue).trans_lt (max_lt hsize hleft)
  have hsure := sums_sure h hdue hsize hentries
  refine ⟨fun d hd => ((yields_run h hdue).of_ok hd).2, ?_, fun x hx => (hsure x hx).1, ?_⟩
  · have hno := (noOverflow_run (s := s) h hdue hsize).not
    simpa [NoOverflow] using hno
  · intro x hx hweight
    have hvalue := (hsure x hx).2 hweight
    rw [Formed.Fits, hweight, hvalue]
    simp only [Aggregate.Holds]
    omega

/-- A call overflows just if one of its changes forms a sum that does not fit, and no such sum is of
counts or of votes, as long as there are never `2 ^ 32` entries. -/
theorem Call.overflow_exact (h : Reachable c) (s : Settings) (source : ContentSource) (call : Call)
    (hsize : ∀ done, done <+: call.changes s source c →
      (left (runAll s done) c).table.size < 2 ^ 32) :
    runAll s (call.changes s source c) c = settled (call.run s source) c ∧
      ((∃ d, call.run s source c = .error .overflow d) ↔
        ∃ done change rest d, call.changes s source c = done ++ change :: rest ∧
          runAll s done c = .ok ⟨⟩ d ∧ ∃ x ∈ change.sums s d, ¬x.Fits) ∧
      ∀ done change rest d, call.changes s source c = done ++ change :: rest →
        runAll s done c = .ok ⟨⟩ d → change.Exact s d := by
  have hrun := runAll_changes h.sound s source call
  have hexact (done : List Change) (change : Change) (rest : List Change) (d : Catalog)
      (hsplit : call.changes s source c = done ++ change :: rest)
      (hdone : runAll s done c = .ok ⟨⟩ d) : change.Exact s d := by
    rw [hsplit] at hrun
    have hnamed (e : Entry) (he : .file e ∈ done ++ change :: rest) : e.topic ≠ .language "" :=
      named_of_mem_changes (hsplit ▸ he)
    have hfaultless (f : Fault) (u : Catalog) :
        runAll s (done ++ change :: rest) c ≠ .error (.fault f) u := by
      rw [hrun]
      exact settled_ne_fault _ f u
    obtain ⟨hd, hdue⟩ := due_of_runAll h.sound hnamed hfaultless hdone
    have hhere := hsize done (hsplit ▸ List.prefix_append done _)
    have hnext := hsize (done ++ [change]) (hsplit ▸ ⟨rest, by simp⟩)
    have hlast : left (runAll s (done ++ [change])) c = left (change.run s) d := by
      rw [left, runAll_append, bind_of_ok hdone, runAll_singleton, left]
    rw [hlast] at hnext
    rw [left, hdone] at hhere
    exact Change.exact hd hdue hhere hnext
  refine ⟨hrun, ?_, hexact⟩
  rw [← exists_settled_overflow, ← hrun, runAll_overflows_iff]
  constructor
  · intro hh
    obtain ⟨done, change, rest, d, hsplit, hdone, hover⟩ := hh
    exact ⟨done, change, rest, d, hsplit, hdone,
      (hexact done change rest d hsplit hdone).overflows.mp hover⟩
  · intro hh
    obtain ⟨done, change, rest, d, hsplit, hdone, hsum⟩ := hh
    exact ⟨done, change, rest, d, hsplit, hdone,
      (hexact done change rest d hsplit hdone).overflows.mpr hsum⟩

def lightPost : Content :=
  { Content.post ⟨"alice", "morning"⟩ .epoch with
    id := 1, cashoutTime := some .last, childrenRshares2 := 1 }

/-- Together the two weigh `2 ^ 128`. -/
def heavyPost : Content :=
  { Content.post ⟨"bob", "evening"⟩ .epoch with
    id := 2, cashoutTime := some .last, childrenRshares2 := 2 ^ 128 - 1 }

def heavySource : ContentSource :=
  ⟨fun a => [lightPost, heavyPost].find? (·.address = a),
    fun id => [lightPost, heavyPost].find? (·.id = id)⟩

/-- The lighter of them is filed. -/
def lightCatalog : Catalog :=
  (after? (Call.run {} heavySource (.classify lightPost.address)) .empty).getD .empty

theorem reachable_lightCatalog : Reachable lightCatalog := reachable_of_call (by decide +kernel)

theorem changes_heavyPost : Call.changes {} heavySource lightCatalog (.classify heavyPost.address) =
    [.file (.ofContent {} (.tag "") none heavyPost)] := by
  rfl

theorem Call.overflow_exact_heavy :
    let call := Call.classify heavyPost.address
    let filing := Change.file (.ofContent {} (.tag "") none heavyPost)
    call.changes {} heavySource lightCatalog = [filing] ∧ filing.Exact {} lightCatalog ∧
      rootWeight (.tag "") (filing.entries {} lightCatalog) = 2 ^ 128 ∧
      ∃ d, call.run {} heavySource lightCatalog = .error .overflow d := by
  intro call filing
  have hsize (done : List Change) (hdone : done <+: call.changes {} heavySource lightCatalog) :
      (left (runAll {} done) lightCatalog).table.size < 2 ^ 32 := by
    rw [changes_heavyPost, ← List.mem_inits] at hdone
    simp only [List.inits, List.map_cons, List.map_nil, List.mem_cons, List.not_mem_nil,
      or_false] at hdone
    rcases hdone with rfl | rfl
    · decide +kernel
    · decide +kernel
  obtain ⟨-, hover, hexact⟩ := overflow_exact reachable_lightCatalog {} heavySource call hsize
  have hfiling := hexact [] filing [] lightCatalog changes_heavyPost rfl
  have hweight : rootWeight (.tag "") (filing.entries {} lightCatalog) = 2 ^ 128 := by
    decide +kernel
  have hx : ⟨.childrenRshares2, .tag "", _⟩ ∈ filing.sums {} lightCatalog := List.Mem.head _
  refine ⟨changes_heavyPost, hfiling, hweight, hover.mpr
    ⟨[], filing, [], lightCatalog, changes_heavyPost, rfl, _, hx, ?_⟩⟩
  exact (hfiling.weights _ hx rfl).mpr hweight.ge

end Catalog

end TagCatalog
