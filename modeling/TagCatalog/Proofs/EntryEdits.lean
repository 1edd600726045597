import TagCatalog.Proofs.EntryTable

/-! Entry tables under any calls whatever, with any entries. The filings and each of the orders hold
one place for each entry, that of the entry as it is now; no id is given twice, and a call that fails
leaves the table as it was. -/

namespace TagCatalog

namespace EntryTable

open Std

variable {t : EntryTable}

theorem insert_eq (t : EntryTable) (e : Entry) : insert e t =
    if t.byFiling.contains e.filing then .error (.fault (.duplicateEntry e.topic e.content)) t
    else .ok t.nextId { t.put { e with id := t.nextId } with
      byFiling := t.byFiling.insert e.filing t.nextId
      nextId := t.nextId + 1 } := by
  simp only [insert, bind, EStateM.bind, get, getThe, MonadStateOf.get, EStateM.get]
  split <;> rfl

theorem replace_eq (t : EntryTable) (e : Entry) : replace e t =
    match t.get? e.id with
    | none => .error (.fault (.entryMissing e.id)) t
    | some old => if sameIdentity old e then .ok ⟨⟩ ((t.unlink old).put e)
      else .error (.fault (.duplicateEntry e.topic e.content)) t := by
  simp only [replace, bind, EStateM.bind, get, getThe, MonadStateOf.get, EStateM.get]
  cases t.get? e.id with
  | none => rfl
  | some old =>
    simp only [Update.require, pure, EStateM.pure]
    split <;> rfl

theorem remove_eq (t : EntryTable) (id : Nat) : remove id t =
    match t.get? id with
    | none => .error (.fault (.entryMissing id)) t
    | some e => .ok e { t.unlink e with
        entries := t.entries.erase id
        byFiling := t.byFiling.erase e.filing } := by
  simp only [remove, bind, EStateM.bind, get, getThe, MonadStateOf.get, EStateM.get]
  cases t.get? id with
  | none => rfl
  | some e => rfl

/-- One place for each entry in the filings and in every order, and nothing else there. -/
structure Faithful (t : EntryTable) : Prop where
  id_eq : ∀ id e, t.get? id = some e → e.id = id
  lt_nextId : ∀ id e, t.get? id = some e → id < t.nextId
  unique : ∀ i j a b, t.get? i = some a → t.get? j = some b → a.topic = b.topic →
    a.content = b.content → i = j
  filings : t.byFiling.toList.Perm (t.toList.map fun e => (e.filing, e.id))
  content : t.byContent.toList.Perm (t.toList.map Entry.contentPlace)
  author : t.byAuthor.toList.Perm (t.toList.map Entry.authorPlace)
  hot : t.byHot.toList.Perm (t.toList.map Entry.hotPlace)
  trending : t.byTrending.toList.Perm (t.toList.map Entry.trendingPlace)
  created : t.byCreated.toList.Perm (t.toList.map Entry.createdPlace)

namespace Coherent

/-- What tells ids apart is different for each entry. -/
theorem nodup_map_toList (h : Coherent t) {κ : Type} {place : Entry → κ}
    (hplace : ∀ a b, place a = place b → a.id = b.id) : (t.toList.map place).Nodup := by
  refine nodup_map_values ?_
  intro i j a b ha hb hab
  calc
    i = a.id := (h.id_eq i a ha).symm
    _ = b.id := hplace a b hab
    _ = j := h.id_eq j b hb

theorem nodup_ids_filter (h : Coherent t) (p : Entry → Bool) :
    ((t.toList.filter p).map (·.id)).Nodup :=
  (h.nodup_map_toList fun _ _ hab => hab).sublist (List.filter_sublist.map _)

theorem mem_ids_filter (h : Coherent t) {p : Entry → Bool} {id : Nat} :
    id ∈ (t.toList.filter p).map (·.id) ↔ ∃ e, t.get? id = some e ∧ p e := by
  simp only [List.mem_map, List.mem_filter, mem_toList]
  constructor
  · intro hh
    obtain ⟨e, ⟨⟨i, he⟩, hp⟩, hid⟩ := hh
    obtain rfl : i = id := (h.id_eq i e he).symm.trans hid
    exact ⟨e, he, hp⟩
  · intro hh
    obtain ⟨e, he, hp⟩ := hh
    exact ⟨e, ⟨⟨id, he⟩, hp⟩, h.id_eq id e he⟩

/-- Entries that are told by their ids are counted by them. -/
theorem countP_toList (h : Coherent t) {p : Entry → Bool} {ids : List Nat} (hn : ids.Nodup)
    (hids : ∀ id, id ∈ ids ↔ ∃ e, t.get? id = some e ∧ p e) :
    t.toList.countP p = ids.length := by
  have hperm : ((t.toList.filter p).map (·.id)).Perm ids := by
    rw [List.perm_ext_iff_of_nodup (h.nodup_ids_filter p) hn]
    exact fun id => h.mem_ids_filter.trans (hids id).symm
  rw [List.countP_eq_length_filter, ← hperm.length_eq, List.length_map]

/-- Two tables share as many ids either way, so that their sizes differ by what the other lacks. -/
theorem size_add {u : EntryTable} (h : Coherent t) (hu : Coherent u) :
    u.size + t.toList.countP (fun e => (u.get? e.id).isNone) =
      t.size + u.toList.countP (fun e => (t.get? e.id).isNone) := by
  have hsplit (t u : EntryTable) : t.size = t.toList.countP (fun e => (u.get? e.id).isSome) +
      t.toList.countP fun e => (u.get? e.id).isNone := by
    rw [← t.length_toList, List.length_eq_countP_add_countP fun e => (u.get? e.id).isSome]
    simp only [Bool.decide_eq_true, Bool.not_eq_true, Option.isSome_eq_false_iff]
  have hshared : t.toList.countP (fun e => (u.get? e.id).isSome) =
      u.toList.countP fun e => (t.get? e.id).isSome := by
    rw [h.countP_toList (hu.nodup_ids_filter fun e => (t.get? e.id).isSome), List.length_map,
      List.countP_eq_length_filter]
    intro id
    rw [hu.mem_ids_filter]
    constructor
    · intro hh
      obtain ⟨e, he, hsome⟩ := hh
      rw [hu.id_eq id e he] at hsome
      obtain ⟨a, ha⟩ := Option.isSome_iff_exists.mp hsome
      exact ⟨a, ha, by rw [h.id_eq id a ha, he]; rfl⟩
    · intro hh
      obtain ⟨a, ha, hsome⟩ := hh
      rw [h.id_eq id a ha] at hsome
      obtain ⟨e, he⟩ := Option.isSome_iff_exists.mp hsome
      exact ⟨e, he, by rw [hu.id_eq id e he, ha]; rfl⟩
  have ht := hsplit t u
  have hu' := hsplit u t
  omega

theorem toList_perm (h : Coherent t) {κ : Type} [Ord κ] [TransOrd κ] [LawfulEqOrd κ]
    {place : Entry → κ} {order : ExtTreeSet κ} (horder : Lists t.entries place order)
    (hplace : ∀ a b, place a = place b → a.id = b.id) :
    order.toList.Perm (t.toList.map place) := by
  have hnodup : order.toList.Nodup := by
    refine order.distinct_toList.imp ?_
    rintro a b hab rfl
    exact hab Std.ReflCmp.compare_self
  rw [List.perm_ext_iff_of_nodup hnodup (h.nodup_map_toList hplace)]
  intro p
  simp only [ExtTreeSet.mem_toList, horder p, List.mem_map, mem_toList]
  constructor
  · intro hh
    obtain ⟨id, e, he, hp⟩ := hh
    exact ⟨e, ⟨id, he⟩, hp⟩
  · intro hh
    obtain ⟨e, ⟨id, he⟩, hp⟩ := hh
    exact ⟨id, e, he, hp⟩

theorem byFiling_perm (h : Coherent t) :
    t.byFiling.toList.Perm (t.toList.map fun e => (e.filing, e.id)) := by
  have hids (a b : Entry) (hab : (a.filing, a.id) = (b.filing, b.id)) : a.id = b.id :=
    congrArg Prod.snd hab
  rw [List.perm_ext_iff_of_nodup (nodup_toList _) (h.nodup_map_toList hids)]
  rintro ⟨f, id⟩
  simp only [ExtTreeMap.mem_toList_iff_getElem?_eq_some, h.filing f id, List.mem_map, mem_toList,
    Prod.mk.injEq]
  constructor
  · intro hh
    obtain ⟨e, he, hf⟩ := hh
    exact ⟨e, ⟨id, he⟩, hf, h.id_eq id e he⟩
  · intro hh
    obtain ⟨e, ⟨i, he⟩, hf, hid⟩ := hh
    obtain rfl := (h.id_eq i e he).symm.trans hid
    exact ⟨e, he, hf⟩

theorem faithful (h : Coherent t) : Faithful t where
  id_eq := h.id_eq
  lt_nextId := h.lt_nextId
  unique i j a b ha hb htopic hcontent :=
    h.id_eq_of_filing ha hb (by rw [Entry.filing, Entry.filing, htopic, hcontent])
  filings := h.byFiling_perm
  content := h.toList_perm h.ordered.content fun _ _ hab => congrArg ContentPlace.id hab
  author := h.toList_perm h.ordered.author fun _ _ hab => congrArg AuthorPlace.id hab
  hot := h.toList_perm h.ordered.hot fun _ _ hab => congrArg TopicPlace.id hab
  trending := h.toList_perm h.ordered.trending fun _ _ hab => congrArg TopicPlace.id hab
  created := h.toList_perm h.ordered.created fun _ _ hab => congrArg TopicPlace.id hab

theorem contains_filing_iff (h : Coherent t) (f : Filing) :
    t.byFiling.contains f = true ↔ ∃ id e, t.get? id = some e ∧ e.filing = f := by
  rw [ExtTreeMap.contains_eq_isSome_getElem?, Option.isSome_iff_exists]
  exact exists_congr fun id => h.filing f id

end Coherent

theorem sameIdentity_iff {a b : Entry} : sameIdentity a b = true ↔
    a.topic = b.topic ∧ a.content = b.content ∧ a.author = b.author := by
  simp [sameIdentity, and_assoc]

/-- Under the condition the call fails with the fault and changes nothing, and otherwise it
returns. -/
structure FailsJustIf {α : Type} (m : Update EntryTable α) (t : EntryTable) (f : Fault)
    (condition : Prop) (ok : α → EntryTable → Prop) : Prop where
  fails : condition → m t = .error (.fault f) t
  returns : ¬ condition → ∃ a u, m t = .ok a u ∧ ok a u

structure Answers (t : EntryTable) : Prop where
  insert : ∀ e, FailsJustIf (insert e) t (.duplicateEntry e.topic e.content)
    (∃ id a, t.get? id = some a ∧ a.topic = e.topic ∧ a.content = e.content)
    fun id u => id = t.nextId ∧ u.entries = t.entries.insert id { e with id }
  replace : ∀ e, FailsJustIf (replace e) t
    (if t.get? e.id = none then .entryMissing e.id else .duplicateEntry e.topic e.content)
    (∀ old, t.get? e.id = some old →
      ¬ (old.topic = e.topic ∧ old.content = e.content ∧ old.author = e.author))
    fun _ u => u.entries = t.entries.insert e.id e
  remove : ∀ id, FailsJustIf (remove id) t (.entryMissing id) (t.get? id = none)
    fun e u => t.get? id = some e ∧ u.entries = t.entries.erase id

namespace Coherent

variable (h : Coherent t)
include h

theorem insert_failsJustIf (e : Entry) : FailsJustIf (insert e) t (.duplicateEntry e.topic e.content)
    (∃ id a, t.get? id = some a ∧ a.topic = e.topic ∧ a.content = e.content)
    fun id u => id = t.nextId ∧ u.entries = t.entries.insert id { e with id } := by
  have htaken : (∃ id a, t.get? id = some a ∧ a.topic = e.topic ∧ a.content = e.content) ↔
      t.byFiling.contains e.filing = true := by
    rw [h.contains_filing_iff]
    simp only [Entry.filing, Filing.mk.injEq]
  rw [htaken]
  constructor
  · intro hc
    rw [insert_eq, if_pos hc]
  · intro hc
    exact ⟨t.nextId, _, by rw [insert_eq, if_neg hc], rfl, rfl⟩

omit h in
theorem replace_failsJustIf (e : Entry) : FailsJustIf (replace e) t
    (if t.get? e.id = none then .entryMissing e.id else .duplicateEntry e.topic e.content)
    (∀ old, t.get? e.id = some old →
      ¬ (old.topic = e.topic ∧ old.content = e.content ∧ old.author = e.author))
    fun _ u => u.entries = t.entries.insert e.id e := by
  simp only [← sameIdentity_iff]
  cases hold : t.get? e.id with
  | none =>
    constructor
    · intro _
      rw [replace_eq, hold, if_pos rfl]
    · intro hno
      exact absurd (fun _ hh => nomatch hh) hno
  | some old =>
    simp only [Option.some.injEq, forall_eq', reduceCtorEq, if_false]
    constructor
    · intro hs
      simp only [replace_eq, hold, if_neg hs]
    · intro hs
      have hm : replace e t = .ok ⟨⟩ ((t.unlink old).put e) := by
        simp only [replace_eq, hold, if_pos (not_not.mp hs)]
      exact ⟨⟨⟩, _, hm, rfl⟩

omit h in
theorem remove_failsJustIf (id : Nat) :
    FailsJustIf (remove id) t (.entryMissing id) (t.get? id = none)
      fun e u => t.get? id = some e ∧ u.entries = t.entries.erase id := by
  constructor
  · intro hnone
    rw [remove_eq, hnone]
  · intro hsome
    obtain ⟨e, he⟩ := Option.ne_none_iff_exists'.mp hsome
    exact ⟨e, _, by rw [remove_eq, he], he, rfl⟩

end Coherent

inductive Call
  | insert (e : Entry)
  | replace (e : Entry)
  | remove (id : Nat)

/-- The ids that a call gives out. -/
def Call.run : Call → Update EntryTable (List Nat)
  | .insert e => do return [← EntryTable.insert e]
  | .replace e => do
    EntryTable.replace e
    return []
  | .remove id => do
    let _ ← EntryTable.remove id
    return []

/-- A table and the ids it has given out. -/
structure Log where
  table : EntryTable := .empty
  given : List Nat := []

namespace Log

def after (log : Log) (call : Call) : Log :=
  match call.run log.table with
  | .ok ids table => ⟨table, log.given ++ ids⟩
  | .error _ table => { log with table }

def ofCalls (calls : List Call) : Log := calls.foldl after {}

structure Holds (log : Log) : Prop where
  coherent : log.table.Coherent
  nodup : log.given.Nodup
  lt_nextId : ∀ id ∈ log.given, id < log.table.nextId
  given : ∀ id e, log.table.get? id = some e → id ∈ log.given

variable {log : Log}

theorem Holds.start : Holds {} where
  coherent := Coherent.empty
  nodup := by simp
  lt_nextId := by simp
  given := by simp [EntryTable.empty, get?]

theorem Holds.insert (h : log.Holds) {e : Entry}
    (hfree : ¬ log.table.byFiling.contains e.filing = true) :
    Holds ⟨{ log.table.put { e with id := log.table.nextId } with
      byFiling := log.table.byFiling.insert e.filing log.table.nextId
      nextId := log.table.nextId + 1 }, log.given ++ [log.table.nextId]⟩ where
  coherent := by
    refine h.coherent.add (e := { e with id := log.table.nextId }) rfl ?_
    intro id a ha hf
    exact hfree ((h.coherent.contains_filing_iff _).mpr ⟨id, a, ha, hf⟩)
  nodup := by
    refine List.nodup_append.mpr ⟨h.nodup, by simp, ?_⟩
    rintro id hid j hj rfl
    have hlt := h.lt_nextId id hid
    simp only [List.mem_singleton] at hj
    omega
  lt_nextId := by
    intro id hid
    change id < log.table.nextId + 1
    rcases List.mem_append.mp hid with hid | hid
    · have hlt := h.lt_nextId id hid
      omega
    · simp only [List.mem_singleton] at hid
      omega
  given := by
    intro id a ha
    simp only [get?, put, getElem?_insert_eq] at ha
    rw [List.mem_append, List.mem_singleton]
    split at ha
    · rename_i hid
      exact .inr hid.symm
    · exact .inl (h.given id a ha)

theorem Holds.replace (h : log.Holds) {e old : Entry} (hold : log.table.get? e.id = some old)
    (hsame : sameIdentity old e = true) :
    Holds { log with table := (log.table.unlink old).put e } where
  coherent := by
    obtain ⟨htopic, hcontent, -⟩ := sameIdentity_iff.mp hsame
    exact h.coherent.change hold (by rw [Entry.filing, Entry.filing, htopic, hcontent])
  nodup := h.nodup
  lt_nextId := h.lt_nextId
  given := by
    intro id a ha
    simp only [get?, put, unlink, getElem?_insert_eq] at ha
    split at ha
    · rename_i hid
      exact hid ▸ h.given e.id old hold
    · exact h.given id a ha

theorem Holds.remove (h : log.Holds) {id : Nat} {e : Entry} (he : log.table.get? id = some e) :
    Holds { log with table := { log.table.unlink e with
      entries := log.table.entries.erase id
      byFiling := log.table.byFiling.erase e.filing } } where
  coherent := h.coherent.erase he
  nodup := h.nodup
  lt_nextId := h.lt_nextId
  given := by
    intro i a ha
    simp only [get?, getElem?_erase_eq] at ha
    split at ha
    · cases ha
    · exact h.given i a ha

theorem Holds.after (h : log.Holds) (call : Call) : (log.after call).Holds := by
  cases call with
  | insert e =>
    simp only [Log.after, Call.run, bind, EStateM.bind, insert_eq]
    by_cases hc : log.table.byFiling.contains e.filing = true
    · rw [if_pos hc]
      exact h
    · rw [if_neg hc]
      exact h.insert hc
  | replace e =>
    simp only [Log.after, Call.run, bind, EStateM.bind, replace_eq]
    cases hold : log.table.get? e.id with
    | none => exact h
    | some old =>
      by_cases hs : sameIdentity old e = true
      · simpa only [if_pos hs, pure, EStateM.pure, List.append_nil] using h.replace hold hs
      · simp only [if_neg hs]
        exact h
  | remove id =>
    simp only [Log.after, Call.run, bind, EStateM.bind, remove_eq]
    cases he : log.table.get? id with
    | none => exact h
    | some e => simpa only [pure, EStateM.pure, List.append_nil] using h.remove he

theorem Holds.foldl (h : log.Holds) (calls : List Call) : (calls.foldl Log.after log).Holds := by
  induction calls generalizing log with
  | nil => exact h
  | cons call calls ih => exact ih (h.after call)

/-- Whatever was called before, the orders tell the entries as they are, no id was given twice, and a
call fails just if it may not be made. -/
theorem faithful_ofCalls (calls : List Call) :
    let log := ofCalls calls
    log.table.Faithful ∧ log.table.Answers ∧ log.given.Nodup ∧
      (∀ id ∈ log.given, id < log.table.nextId) ∧
      ∀ id e, log.table.get? id = some e → id ∈ log.given := by
  have h : (ofCalls calls).Holds := Holds.start.foldl calls
  refine ⟨h.coherent.faithful, ⟨?_, ?_, ?_⟩, h.nodup, h.lt_nextId, h.given⟩
  · exact h.coherent.insert_failsJustIf
  · exact Coherent.replace_failsJustIf
  · exact Coherent.remove_failsJustIf

end Log

end EntryTable

end TagCatalog
