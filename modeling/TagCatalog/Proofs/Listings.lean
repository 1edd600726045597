import TagCatalog.Catalog.Basic
import TagCatalog.Proofs.EntryEdits

/-! What is read from an entry table after any calls. Each listing has just the entries that are asked
for, once each and in its order, however names, authors, ids and scores lie to each other. -/

namespace TagCatalog

namespace Entry

/-- Greater keys come first, and of equal keys the entry that was added first. -/
def Ahead {κ : Type} [Ord κ] (key : Entry → κ) (a b : Entry) : Prop :=
  compare (key b) (key a) = .lt ∨ key a = key b ∧ a.id < b.id

def placeBy {κ : Type} (key : Entry → κ) (e : Entry) : TopicPlace κ := ⟨e.topic, key e, e.id⟩

end Entry

namespace EntryTable

open Std

/-- The entries that are wanted, each once and in order. -/
structure Tells (t : EntryTable) (wanted : Entry → Prop) (ahead : Entry → Entry → Prop)
    (es : List Entry) : Prop where
  mem : ∀ e, e ∈ es ↔ (∃ id, t.get? id = some e) ∧ wanted e
  nodup : es.Nodup
  sorted : es.Pairwise ahead

variable {t : EntryTable}

theorem listed_eq {κ : Type} [Ord κ] [TransOrd κ] (t : EntryTable)
    (order : ExtTreeSet (TopicPlace κ)) (top : κ) (topic : Topic) :
    t.listed order top topic = (order.toList.filter fun p =>
      p.topic = topic && (compare p.key top).isLE).filterMap fun p => t.get? p.id := by
  have hgroup (a b : TopicPlace κ) (h : (compare a b).isLE = true) :
      (compare a.topic b.topic).isLE = true := Ordering.isLE_left_of_isLE_then h
  have hscan := takeWhile_placesFrom order ⟨topic, top, 0⟩ hgroup
  rw [listed, hscan]
  refine congrArg (List.filterMap _) (List.filter_congr fun p _ => ?_)
  by_cases htopic : p.topic = topic
  · subst htopic
    have hfloor : (compare ⟨p.topic, top, 0⟩ p).isLE = (compare p.key top).isLE := by
      change ((compare p.topic p.topic).then ((compare p.key top).then (compare 0 p.id))).isLE = _
      rw [Bool.eq_iff_iff]
      simp [Ordering.isLE_then_iff_and, Nat.isLE_compare]
    rw [hfloor]
  · simp [htopic]

section

variable {κ : Type} [Ord κ] [TransOrd κ] [LawfulEqOrd κ] {key : Entry → κ}
  {order : ExtTreeSet (TopicPlace κ)}

omit [LawfulEqOrd κ] in
theorem Coherent.place_eq (h : t.Coherent)
    (horder : Lists t.entries (Entry.placeBy key) order) {p : TopicPlace κ}
    (hp : p ∈ order) {e : Entry} (he : t.get? p.id = some e) : p = e.placeBy key := by
  obtain ⟨id, a, ha, rfl⟩ := (horder p).mp hp
  rw [show (a.placeBy key).id = id from h.id_eq id a ha] at he
  rw [Option.some.inj (he.symm.trans ha)]

theorem Coherent.mem_listed (h : t.Coherent)
    (horder : Lists t.entries (Entry.placeBy key) order) {top : κ} {topic : Topic}
    {e : Entry} :
    e ∈ t.listed order top topic ↔
      (∃ id, t.get? id = some e) ∧ e.topic = topic ∧ (compare (key e) top).isLE = true := by
  simp only [listed_eq, List.mem_filterMap, List.mem_filter, ExtTreeSet.mem_toList,
    Bool.and_eq_true, decide_eq_true_eq]
  constructor
  · intro hh
    obtain ⟨p, ⟨hp, htopic, hle⟩, he⟩ := hh
    have hplace := h.place_eq horder hp he
    rw [hplace] at htopic hle
    exact ⟨⟨p.id, he⟩, htopic, hle⟩
  · intro hh
    obtain ⟨⟨id, he⟩, htopic, hle⟩ := hh
    refine ⟨e.placeBy key, ⟨(horder _).mpr ⟨id, e, he, rfl⟩, htopic, hle⟩, ?_⟩
    rw [show (e.placeBy key).id = id from h.id_eq id e he]
    exact he

theorem Coherent.pairwise_listed (h : t.Coherent)
    (horder : Lists t.entries (Entry.placeBy key) order) (top : κ) (topic : Topic) :
    (t.listed order top topic).Pairwise (Entry.Ahead key) := by
  rw [listed_eq, List.pairwise_filterMap]
  refine (order.ordered_toList.filter _).imp_of_mem ?_
  intro p q hp hq hpq a ha b hb
  simp only [List.mem_filter, ExtTreeSet.mem_toList, Bool.and_eq_true, decide_eq_true_eq] at hp hq
  have hpa := h.place_eq horder hp.1 ha
  have hqb := h.place_eq horder hq.1 hb
  have htopics : a.topic = b.topic := by
    calc
      a.topic = p.topic := (congrArg TopicPlace.topic hpa).symm
      _ = q.topic := hp.2.1.trans hq.2.1.symm
      _ = b.topic := congrArg TopicPlace.topic hqb
  rw [hpa, hqb] at hpq
  change (compare a.topic b.topic).then
    ((compare (key b) (key a)).then (compare a.id b.id)) = .lt at hpq
  simp only [htopics, ReflCmp.compare_self, Ordering.then_eq_lt, reduceCtorEq, true_and, false_or,
    Std.compare_eq_iff_eq, Nat.compare_eq_lt] at hpq
  exact hpq.imp_right fun hh => ⟨hh.1.symm, hh.2⟩

theorem Coherent.tells_listed (h : t.Coherent)
    (horder : Lists t.entries (Entry.placeBy key) order) (top : κ) (topic : Topic) :
    t.Tells (fun e => e.topic = topic ∧ (compare (key e) top).isLE = true) (Entry.Ahead key)
      (t.listed order top topic) where
  mem _ := h.mem_listed horder
  nodup := by
    refine (h.pairwise_listed horder top topic).imp ?_
    rintro a b hab rfl
    rcases hab with hlt | ⟨-, hlt⟩
    · simp at hlt
    · exact Nat.lt_irrefl _ hlt
  sorted := h.pairwise_listed horder top topic

end

theorem pairwise_idsOfContent (t : EntryTable) (content : Nat) :
    (t.idsOfContent content).Pairwise (· < ·) := by
  rw [idsOfContent, List.pairwise_map]
  refine (t.byContent.ordered_toList.filter _).imp_of_mem ?_
  intro p q hp hq hpq
  have hcontents : p.content = q.content := by
    have hpc := of_decide_eq_true (List.mem_filter.mp hp).2
    have hqc := of_decide_eq_true (List.mem_filter.mp hq).2
    exact hpc.trans hqc.symm
  change (compare p.content q.content).then (compare p.id q.id) = .lt at hpq
  simpa [hcontents, Nat.compare_eq_lt] using hpq

theorem pairwise_ofAuthor (t : EntryTable) (author : String) :
    ((t.ofAuthor author).map fun p => (p.content, p.id)).Pairwise fun a b =>
      a.1 < b.1 ∨ a.1 = b.1 ∧ a.2 < b.2 := by
  rw [ofAuthor_eq, List.pairwise_map]
  refine (t.byAuthor.ordered_toList.filter _).imp_of_mem ?_
  intro p q hp hq hpq
  have hauthors : p.author = q.author := by
    have hpa := of_decide_eq_true (List.mem_filter.mp hp).2
    have hqa := of_decide_eq_true (List.mem_filter.mp hq).2
    exact hpa.trans hqa.symm
  change (compare p.author q.author).then
    ((compare p.content q.content).then (compare p.id q.id)) = .lt at hpq
  simpa [hauthors, Ordering.then_eq_lt, Nat.compare_eq_lt, Nat.compare_eq_eq] using hpq

theorem Coherent.find?_eq_some (h : t.Coherent) {topic : Topic} {content : Nat} {e : Entry} :
    t.find? topic content = some e ↔
      (∃ id, t.get? id = some e) ∧ e.topic = topic ∧ e.content = content := by
  rw [find?, Option.bind_eq_some_iff]
  constructor
  · intro hh
    obtain ⟨id, hid, he⟩ := hh
    obtain ⟨a, ha, hf⟩ := (h.filing _ id).mp hid
    obtain rfl := Option.some.inj (he.symm.trans ha)
    exact ⟨⟨id, he⟩, congrArg Filing.topic hf, congrArg Filing.content hf⟩
  · intro hh
    obtain ⟨⟨id, he⟩, rfl, rfl⟩ := hh
    exact ⟨id, (h.filing _ id).mpr ⟨e, he, rfl⟩, he⟩

/-- Every way to read a table tells just the entries that it asks for, in its order. -/
structure Reads (t : EntryTable) : Prop where
  hot : ∀ topic, t.Tells (fun e => e.topic = topic ∧ (compare e.hot .infinity).isLE = true)
    (Entry.Ahead Entry.hot) (t.hot topic)
  trending : ∀ topic,
    t.Tells (fun e => e.topic = topic ∧ (compare e.trending .infinity).isLE = true)
      (Entry.Ahead Entry.trending) (t.trending topic)
  created : ∀ topic, t.Tells (fun e => e.topic = topic ∧ (compare e.created .last).isLE = true)
    (Entry.Ahead Entry.created) (t.created topic)
  content : ∀ content, (t.idsOfContent content).Pairwise (· < ·) ∧
    ∀ id, id ∈ t.idsOfContent content ↔ ∃ e, t.get? id = some e ∧ e.content = content
  author : ∀ author, let places := (t.ofAuthor author).map fun p => (p.content, p.id)
    (places.Pairwise fun a b => a.1 < b.1 ∨ a.1 = b.1 ∧ a.2 < b.2) ∧
      ∀ content id, (content, id) ∈ places ↔
        ∃ e, t.get? id = some e ∧ e.author = author ∧ e.content = content
  filing : ∀ topic content e, t.find? topic content = some e ↔
    (∃ id, t.get? id = some e) ∧ e.topic = topic ∧ e.content = content

theorem Coherent.reads (h : t.Coherent) : t.Reads where
  hot := h.tells_listed h.ordered.hot .infinity
  trending := h.tells_listed h.ordered.trending .infinity
  created := h.tells_listed h.ordered.created .last
  content content := ⟨pairwise_idsOfContent t content, fun _ => h.mem_idsOfContent⟩
  author author := by
    refine ⟨pairwise_ofAuthor t author, fun content id => ?_⟩
    simp only [List.mem_map, Prod.mk.injEq, h.mem_ofAuthor]
    constructor
    · intro hh
      obtain ⟨_, ⟨e, he, hauthor, rfl⟩, rfl, rfl⟩ := hh
      exact ⟨e, he, hauthor, rfl⟩
    · intro hh
      obtain ⟨e, he, hauthor, hcontent⟩ := hh
      have hid := h.id_eq id e he
      refine ⟨e.authorPlace, ⟨e, ?_, hauthor, rfl⟩, hcontent, hid⟩
      rw [show e.authorPlace.id = id from hid]
      exact he
  filing _ _ _ := h.find?_eq_some

/-- Whatever was called before, reading tells the entries as they are, and a catalog with a limit the
first of them. -/
theorem Log.reads_ofCalls (calls : List Call) (totals : Totals) :
    let t := (Log.ofCalls calls).table
    let c : Catalog := ⟨t, totals⟩
    t.Reads ∧ ∀ topic limit, c.hot topic limit = (t.hot topic).take limit ∧
      c.trending topic limit = (t.trending topic).take limit ∧
      c.created topic limit = (t.created topic).take limit := by
  have h : (Log.ofCalls calls).Holds := Log.Holds.start.foldl calls
  exact ⟨h.coherent.reads, fun _ _ => ⟨rfl, rfl, rfl⟩⟩

end EntryTable

end TagCatalog
