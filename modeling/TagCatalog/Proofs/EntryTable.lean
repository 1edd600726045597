import TagCatalog.Catalog.EntryTable
import TagCatalog.Proofs.Update

/-! An entry table whose orders hold the places of its entries and nothing else. Adding, replacing
and removing entries keep it so, and change the entries as they say. -/

namespace TagCatalog

/-- What holds of an element only if it holds of those before it holds of a first part of a list. -/
theorem takeWhile_eq_filter {α : Type} {p : α → Bool} {l : List α}
    (h : l.Pairwise fun a b => p b = true → p a = true) : l.takeWhile p = l.filter p := by
  induction l with
  | nil => rfl
  | cons a l ih =>
    obtain ⟨ha, hl⟩ := List.pairwise_cons.mp h
    cases hp : p a with
    | true => rw [List.takeWhile_cons_of_pos hp, List.filter_cons_of_pos hp, ih hl]
    | false =>
      have hnone : l.filter p = [] := by
        rw [List.filter_eq_nil_iff]
        intro b hb hpb
        exact absurd (ha b hb hpb) (by simp [hp])
      simp [hp, hnone]

section

variable {κ β : Type} [Ord κ] [Std.TransOrd κ]

theorem values_eq_map_toList (m : Std.ExtTreeMap κ β) : m.values = m.toList.map (·.2) := by
  obtain ⟨m⟩ := m
  induction m using Std.ExtDTreeMap.inductionOn with
  | _ m =>
    change m.values = (Std.DTreeMap.Const.toList m).map (·.2)
    simp [Std.DTreeMap.values, Std.DTreeMap.Const.toList,
      Std.DTreeMap.Internal.Impl.values_eq_map_snd,
      Std.DTreeMap.Internal.Impl.Const.toList_eq_toListModel_map]

variable [Std.LawfulEqOrd κ]

theorem getElem?_insert_eq (m : Std.ExtTreeMap κ β) (k a : κ) (v : β) [DecidableEq κ] :
    (m.insert k v)[a]? = if k = a then some v else m[a]? := by
  simp [Std.ExtTreeMap.getElem?_insert]

theorem getElem?_erase_eq (m : Std.ExtTreeMap κ β) (k a : κ) [DecidableEq κ] :
    (m.erase k)[a]? = if k = a then none else m[a]? := by
  simp [Std.ExtTreeMap.getElem?_erase]

theorem erase_insert [DecidableEq κ] (m : Std.ExtTreeMap κ β) (k : κ) (v : β) :
    (m.insert k v).erase k = m.erase k := by
  apply Std.ExtTreeMap.ext_getElem?
  intro a
  simp only [getElem?_erase_eq, getElem?_insert_eq]
  split <;> rfl

theorem mem_values {m : Std.ExtTreeMap κ β} {v : β} : v ∈ m.values ↔ ∃ k : κ, m[k]? = some v := by
  simp [values_eq_map_toList, Std.ExtTreeMap.mem_toList_iff_getElem?_eq_some]

theorem nodup_toList (m : Std.ExtTreeMap κ β) : m.toList.Nodup := by
  refine m.distinct_keys_toList.imp ?_
  rintro a b h rfl
  exact h Std.ReflCmp.compare_self

/-- What tells the keys of a map apart is different for each of its values. -/
theorem nodup_map_values {γ : Type} {m : Std.ExtTreeMap κ β} {f : β → γ}
    (hf : ∀ (k k' : κ) (v v' : β), m[k]? = some v → m[k']? = some v' → f v = f v' → k = k') :
    (m.values.map f).Nodup := by
  rw [values_eq_map_toList, List.map_map]
  refine List.Nodup.map_on ?_ (nodup_toList m)
  intro p hp q hq hpq
  have hgetp : m[p.1]? = some p.2 := Std.ExtTreeMap.mem_toList_iff_getElem?_eq_some.mp hp
  have hgetq : m[q.1]? = some q.2 := Std.ExtTreeMap.mem_toList_iff_getElem?_eq_some.mp hq
  have hkey : p.1 = q.1 := hf p.1 q.1 p.2 q.2 hgetp hgetq hpq
  rw [hkey] at hgetp
  exact Prod.ext hkey (Option.some.inj (hgetp.symm.trans hgetq))

theorem values_insert_perm [DecidableEq κ] {m : Std.ExtTreeMap κ β} {k : κ} (h : m[k]? = none)
    (v : β) : (m.insert k v).values.Perm (v :: m.values) := by
  have hk : (k, v) ∉ m.toList := by simp [Std.ExtTreeMap.mem_toList_iff_getElem?_eq_some, h]
  have hperm : (m.insert k v).toList.Perm ((k, v) :: m.toList) := by
    rw [List.perm_ext_iff_of_nodup (nodup_toList _) (List.nodup_cons.mpr ⟨hk, nodup_toList _⟩)]
    intro hh
    obtain ⟨a, b⟩ := hh
    simp only [Std.ExtTreeMap.mem_toList_iff_getElem?_eq_some, getElem?_insert_eq, List.mem_cons,
      Prod.mk.injEq]
    by_cases ha : k = a
    · subst ha
      simp [h, eq_comm]
    · simp [ha, Ne.symm ha]
  simp only [values_eq_map_toList]
  exact hperm.map (·.2)

theorem values_perm_erase [DecidableEq κ] {m : Std.ExtTreeMap κ β} {k : κ} {v : β}
    (h : m[k]? = some v) : m.values.Perm (v :: (m.erase k).values) := by
  have he : (m.erase k)[k]? = none := by simp
  have hm : (m.erase k).insert k v = m := by
    apply Std.ExtTreeMap.ext_getElem?
    intro a
    rw [getElem?_insert_eq, getElem?_erase_eq]
    split <;> simp_all
  exact (List.Perm.of_eq (congrArg Std.ExtTreeMap.values hm.symm)).trans (values_insert_perm he v)

end

namespace EntryTable

open Std

section

variable {κ : Type} [Ord κ] [TransOrd κ] [LawfulEqOrd κ]

/-- An order has the places of the entries and nothing else. -/
def Lists (entries : ExtTreeMap Nat Entry) (place : Entry → κ) (order : ExtTreeSet κ) : Prop :=
  ∀ p, p ∈ order ↔ ∃ (id : Nat) (e : Entry), entries[id]? = some e ∧ place e = p

variable {entries : ExtTreeMap Nat Entry} {place : Entry → κ} {order : ExtTreeSet κ}

theorem Lists.ext {entries' : ExtTreeMap Nat Entry} {order' : ExtTreeSet κ}
    (h : Lists entries place order) (h' : Lists entries' place order')
    (hsame : ∀ p, (∃ (id : Nat) (e : Entry), entries[id]? = some e ∧ place e = p) ↔
      ∃ (id : Nat) (e : Entry), entries'[id]? = some e ∧ place e = p) : order = order' :=
  ExtTreeSet.ext_mem fun p => (h p).trans ((hsame p).trans (h' p).symm)

theorem Lists.insert (h : Lists entries place order) {id : Nat} (hid : entries[id]? = none)
    (e : Entry) : Lists (entries.insert id e) place (order.insert (place e)) := by
  intro p
  simp only [ExtTreeSet.mem_insert, Std.compare_eq_iff_eq, h p, getElem?_insert_eq]
  constructor
  · rintro (rfl | ⟨id', e', he', rfl⟩)
    · exact ⟨id, e, by simp, rfl⟩
    · have hne : id ≠ id' := fun hh => by simp [hh, he'] at hid
      exact ⟨id', e', by simp [hne, he'], rfl⟩
  · intro hh
    obtain ⟨id', e', he', rfl⟩ := hh
    split at he'
    · simp_all
    · exact .inr ⟨id', e', he', rfl⟩

theorem Lists.erase (h : Lists entries place order) {id : Nat} {e : Entry}
    (hids : ∀ (i : Nat) (a : Entry), entries[i]? = some a → a.id = i)
    (hplace : ∀ a b : Entry, place a = place b → a.id = b.id) (he : entries[id]? = some e) :
    Lists (entries.erase id) place (order.erase (place e)) := by
  intro p
  simp only [ExtTreeSet.mem_erase, ne_eq, Std.compare_eq_iff_eq, h p, getElem?_erase_eq]
  constructor
  · intro hh
    obtain ⟨hne, id', e', he', rfl⟩ := hh
    have hid : id ≠ id' := by
      rintro rfl
      exact hne (by rw [Option.some.inj (he.symm.trans he')])
    exact ⟨id', e', by simp [hid, he'], rfl⟩
  · intro hh
    obtain ⟨id', e', he', rfl⟩ := hh
    split at he'
    · simp at he'
    · rename_i hne
      refine ⟨fun hh => hne ?_, id', e', he', rfl⟩
      rw [← hids id e he, ← hids id' e' he', hplace e e' hh]

end

section

variable {κ γ : Type} [Ord κ] [TransOrd κ] [Ord γ] [TransOrd γ] [LawfulEqOrd γ]
  [DecidableEq γ]

/-- A scan to where the group of its floor ends meets all of the group from the floor on, if groups
stand one after the other. -/
theorem takeWhile_placesFrom (order : ExtTreeSet κ) (floor : κ) {group : κ → γ}
    (hgroup : ∀ a b : κ, (compare a b).isLE = true → (compare (group a) (group b)).isLE = true) :
    (placesFrom order floor).takeWhile (fun p => group p = group floor) =
      order.toList.filter fun p => group p = group floor && (compare floor p).isLE := by
  rw [takeWhile_eq_filter, placesFrom, List.filter_filter]
  have hsorted := order.ordered_toList.filter fun p => (compare floor p).isLE
  refine hsorted.imp_of_mem ?_
  intro a b ha _ hab hb
  rw [decide_eq_true_eq] at hb ⊢
  have hfloor := hgroup floor a (List.mem_filter.mp ha).2
  have hle := hgroup a b (by simp [hab])
  rw [hb] at hle
  exact LawfulEqOrd.eq_of_compare (OrientedCmp.isLE_antisymm hle hfloor)

end

theorem ofAuthor_eq (t : EntryTable) (author : String) :
    t.ofAuthor author = t.byAuthor.toList.filter (·.author = author) := by
  have hgroup (a b : AuthorPlace) (h : (compare a b).isLE = true) :
      (compare a.author b.author).isLE = true := Ordering.isLE_left_of_isLE_then h
  have hscan := takeWhile_placesFrom t.byAuthor ⟨author, 0, 0⟩ hgroup
  rw [ofAuthor, hscan]
  refine List.filter_congr fun p _ => ?_
  by_cases hauthor : p.author = author
  · subst hauthor
    have hfloor : (compare ⟨p.author, 0, 0⟩ p).isLE = true := by
      change ((compare p.author p.author).then
        ((compare 0 p.content).then (compare 0 p.id))).isLE = true
      simp [Ordering.isLE_then_iff_and, Nat.isLE_compare]
    simp [hfloor]
  · simp [hauthor]

structure Ordered (entries : ExtTreeMap Nat Entry) (t : EntryTable) : Prop where
  content : Lists entries Entry.contentPlace t.byContent
  author : Lists entries Entry.authorPlace t.byAuthor
  hot : Lists entries Entry.hotPlace t.byHot
  trending : Lists entries Entry.trendingPlace t.byTrending
  created : Lists entries Entry.createdPlace t.byCreated

theorem Ordered.link {entries : ExtTreeMap Nat Entry} {t : EntryTable} (h : Ordered entries t)
    {id : Nat} (hid : entries[id]? = none) (e : Entry) :
    Ordered (entries.insert id e) (t.link e) where
  content := h.content.insert hid e
  author := h.author.insert hid e
  hot := h.hot.insert hid e
  trending := h.trending.insert hid e
  created := h.created.insert hid e

theorem Ordered.unlink {entries : ExtTreeMap Nat Entry} {t : EntryTable} (h : Ordered entries t)
    {id : Nat} {e : Entry} (hids : ∀ (i : Nat) (a : Entry), entries[i]? = some a → a.id = i)
    (he : entries[id]? = some e) : Ordered (entries.erase id) (t.unlink e) where
  content := h.content.erase hids (fun _ _ hh => congrArg ContentPlace.id hh) he
  author := h.author.erase hids (fun _ _ hh => congrArg AuthorPlace.id hh) he
  hot := h.hot.erase hids (fun _ _ hh => congrArg TopicPlace.id hh) he
  trending := h.trending.erase hids (fun _ _ hh => congrArg TopicPlace.id hh) he
  created := h.created.erase hids (fun _ _ hh => congrArg TopicPlace.id hh) he

/-- Entries stand under their own ids, below the next one, and one to a filing; the filings and
the orders tell just these entries. -/
structure Coherent (t : EntryTable) : Prop where
  id_eq : ∀ id e, t.get? id = some e → e.id = id
  lt_nextId : ∀ id e, t.get? id = some e → id < t.nextId
  filing : ∀ f id, t.byFiling[f]? = some id ↔ ∃ e, t.get? id = some e ∧ e.filing = f
  ordered : Ordered t.entries t

theorem mem_toList {t : EntryTable} {e : Entry} : e ∈ t.toList ↔ ∃ id, t.get? id = some e :=
  mem_values

theorem length_toList (t : EntryTable) : t.toList.length = t.size := by
  rw [toList, values_eq_map_toList, List.length_map, ExtTreeMap.length_toList, size]

theorem exists_mem_toList {t : EntryTable} {p : Entry → Prop} :
    (∃ e ∈ t.toList, p e) ↔ ∃ id e, t.get? id = some e ∧ p e := by
  simp only [mem_toList]
  exact ⟨fun ⟨e, ⟨id, he⟩, hp⟩ => ⟨id, e, he, hp⟩, fun ⟨id, e, he, hp⟩ => ⟨e, ⟨id, he⟩, hp⟩⟩

namespace Coherent

variable {t : EntryTable}

theorem empty : Coherent .empty where
  id_eq := by simp [EntryTable.empty, get?]
  lt_nextId := by simp [EntryTable.empty, get?]
  filing := by simp [EntryTable.empty, get?]
  ordered := by constructor <;> simp [Lists, EntryTable.empty]

theorem id_eq_of_filing (h : Coherent t) {i j : Nat} {a b : Entry} (ha : t.get? i = some a)
    (hb : t.get? j = some b) (hab : a.filing = b.filing) : i = j := by
  have hi := (h.filing a.filing i).mpr ⟨a, ha, rfl⟩
  have hj := (h.filing a.filing j).mpr ⟨b, hb, hab.symm⟩
  exact Option.some.inj (hi.symm.trans hj)

theorem byFiling_eq_none (h : Coherent t) {f : Filing}
    (hf : ∀ id e, t.get? id = some e → e.filing ≠ f) : t.byFiling[f]? = none := by
  cases hg : t.byFiling[f]? with
  | none => rfl
  | some id =>
    obtain ⟨e, he, hef⟩ := (h.filing f id).mp hg
    exact absurd hef (hf id e he)

theorem get?_nextId (h : Coherent t) : t.get? t.nextId = none := by
  cases hg : t.get? t.nextId with
  | none => rfl
  | some e => exact absurd (h.lt_nextId _ e hg) (Nat.lt_irrefl _)

theorem mem_idsOfContent (h : Coherent t) {content id : Nat} :
    id ∈ t.idsOfContent content ↔ ∃ e, t.get? id = some e ∧ e.content = content := by
  simp only [idsOfContent, List.mem_map, List.mem_filter, ExtTreeSet.mem_toList,
    decide_eq_true_eq, h.ordered.content _]
  constructor
  · intro hh
    obtain ⟨_, ⟨⟨i, e, he, rfl⟩, hc⟩, rfl⟩ := hh
    refine ⟨e, ?_, hc⟩
    rw [show e.contentPlace.id = i from h.id_eq i e he]
    exact he
  · intro hh
    obtain ⟨e, he, hc⟩ := hh
    exact ⟨e.contentPlace, ⟨⟨id, e, he, rfl⟩, hc⟩, h.id_eq id e he⟩

/-- A table is told by its entries and the next id. -/
theorem ext {u : EntryTable} (h : Coherent t) (hu : Coherent u) (hnext : t.nextId = u.nextId)
    (hget : ∀ id, t.get? id = u.get? id) : t = u := by
  have hentries : t.entries = u.entries := ExtTreeMap.ext_getElem? fun {id} => hget id
  have hfiling : t.byFiling = u.byFiling := by
    refine ExtTreeMap.ext_getElem? fun {f} => Option.ext fun id => ?_
    rw [h.filing, hu.filing, hget]
  have horders := hentries ▸ h.ordered
  have hcontent := horders.content.ext hu.ordered.content fun _ => Iff.rfl
  have hauthor := horders.author.ext hu.ordered.author fun _ => Iff.rfl
  have hhot := horders.hot.ext hu.ordered.hot fun _ => Iff.rfl
  have htrending := horders.trending.ext hu.ordered.trending fun _ => Iff.rfl
  have hcreated := horders.created.ext hu.ordered.created fun _ => Iff.rfl
  cases t
  cases u
  simp only [mk.injEq]
  exact ⟨hentries, hfiling, hcontent, hauthor, hhot, htrending, hcreated, hnext⟩

/-- The order by content does not tell more of an entry than its content. -/
theorem idsOfContent_eq {u : EntryTable} (h : Coherent t) (hu : Coherent u)
    (hsame : ∀ id, (t.get? id).map Entry.content = (u.get? id).map Entry.content) (content : Nat) :
    t.idsOfContent content = u.idsOfContent content := by
  have hplace {t : EntryTable} (h : Coherent t) (p : ContentPlace) :
      (∃ (id : Nat) (e : Entry), t.entries[id]? = some e ∧ e.contentPlace = p) ↔
        (t.get? p.id).map Entry.content = some p.content := by
    rw [Option.map_eq_some_iff]
    constructor
    · intro hh
      obtain ⟨id, e, he, rfl⟩ := hh
      have hid : e.contentPlace.id = id := h.id_eq id e he
      exact ⟨e, by rw [hid]; exact he, rfl⟩
    · intro hh
      obtain ⟨e, he, hc⟩ := hh
      refine ⟨p.id, e, he, ?_⟩
      rw [Entry.contentPlace, hc, h.id_eq p.id e he]
  have horder : t.byContent = u.byContent := by
    refine h.ordered.content.ext hu.ordered.content fun p => ?_
    rw [hplace h, hplace hu, hsame]
  rw [idsOfContent, idsOfContent, horder]

theorem mem_ofAuthor (h : Coherent t) {author : String} {p : AuthorPlace} :
    p ∈ t.ofAuthor author ↔ ∃ e, t.get? p.id = some e ∧ e.author = author ∧ e.authorPlace = p := by
  simp only [ofAuthor_eq, List.mem_filter, ExtTreeSet.mem_toList, decide_eq_true_eq,
    h.ordered.author _]
  constructor
  · intro hh
    obtain ⟨⟨i, e, he, rfl⟩, hc⟩ := hh
    refine ⟨e, ?_, hc, rfl⟩
    rw [show e.authorPlace.id = i from h.id_eq i e he]
    exact he
  · intro hh
    obtain ⟨e, he, hc, rfl⟩ := hh
    exact ⟨⟨_, e, he, rfl⟩, hc⟩

theorem nodup_idsOfContent (t : EntryTable) (content : Nat) : (t.idsOfContent content).Nodup := by
  refine List.Nodup.map_on ?_ ((t.byContent.distinct_toList.imp ?_).filter _)
  · rintro ⟨c, i⟩ hp ⟨d, j⟩ hq hij
    simp_all
  · rintro a b hab rfl
    exact hab Std.ReflCmp.compare_self

theorem nodup_ofAuthor (h : Coherent t) (author : String) :
    ((t.ofAuthor author).map (·.id)).Nodup := by
  have hnodup : (t.ofAuthor author).Nodup := by
    rw [ofAuthor_eq]
    refine (t.byAuthor.distinct_toList.imp ?_).filter _
    rintro a b hab rfl
    exact hab Std.ReflCmp.compare_self
  refine List.Nodup.map_on ?_ hnodup
  intro p hp q hq hpq
  obtain ⟨a, ha, -, rfl⟩ := h.mem_ofAuthor.mp hp
  obtain ⟨b, hb, -, rfl⟩ := h.mem_ofAuthor.mp hq
  rw [hpq, hb] at ha
  rw [Option.some.inj ha]

theorem add (h : Coherent t) {e : Entry} (hid : e.id = t.nextId)
    (hf : ∀ id a, t.get? id = some a → a.filing ≠ e.filing) :
    Coherent { t.put e with
      byFiling := t.byFiling.insert e.filing e.id
      nextId := e.id + 1 } := by
  have hnone : t.entries[e.id]? = none := hid ▸ h.get?_nextId
  constructor
  · intro id a ha
    simp only [get?, put, getElem?_insert_eq] at ha
    split at ha
    · simp_all
    · exact h.id_eq id a ha
  · intro id a ha
    simp only [get?, put, getElem?_insert_eq] at ha ⊢
    split at ha
    · omega
    · have := h.lt_nextId id a ha
      omega
  · intro f id
    simp only [get?, put, getElem?_insert_eq]
    by_cases hfe : e.filing = f
    · subst hfe
      simp only [if_true, Option.some.injEq]
      constructor
      · rintro rfl
        exact ⟨e, by simp, rfl⟩
      · intro hh
        obtain ⟨a, ha, hae⟩ := hh
        split at ha
        · assumption
        · exact absurd hae (hf id a ha)
    · simp only [hfe, if_false, h.filing f id]
      constructor
      · intro hh
        obtain ⟨a, ha, hae⟩ := hh
        have hne : e.id ≠ id := by
          rintro rfl
          simp [get?, hnone] at ha
        exact ⟨a, by rw [if_neg hne]; exact ha, hae⟩
      · intro hh
        obtain ⟨a, ha, hae⟩ := hh
        split at ha
        · simp_all
        · exact ⟨a, ha, hae⟩
  · have ho := h.ordered.link hnone e
    exact ⟨ho.content, ho.author, ho.hot, ho.trending, ho.created⟩

theorem erase (h : Coherent t) {id : Nat} {e : Entry} (he : t.get? id = some e) :
    Coherent { t.unlink e with
      entries := t.entries.erase id
      byFiling := t.byFiling.erase e.filing } := by
  constructor
  · intro i a ha
    simp only [get?, getElem?_erase_eq] at ha
    split at ha
    · simp at ha
    · exact h.id_eq i a ha
  · intro i a ha
    simp only [get?, getElem?_erase_eq] at ha
    split at ha
    · simp at ha
    · exact h.lt_nextId i a ha
  · intro f i
    simp only [get?, getElem?_erase_eq]
    by_cases hfe : e.filing = f
    · subst hfe
      simp only [if_true, reduceCtorEq, false_iff]
      intro hh
      obtain ⟨a, ha, hae⟩ := hh
      split at ha
      · simp at ha
      · rename_i hne
        exact hne (h.id_eq_of_filing he ha hae.symm)
    · simp only [hfe, if_false]
      refine (h.filing f i).trans ⟨?_, ?_⟩
      · intro hh
        obtain ⟨a, ha, hae⟩ := hh
        have hne : id ≠ i := by
          rintro rfl
          rw [he] at ha
          exact hfe (by rw [Option.some.inj ha, hae])
        exact ⟨a, by rw [if_neg hne]; exact ha, hae⟩
      · intro hh
        obtain ⟨a, ha, hae⟩ := hh
        split at ha
        · simp at ha
        · exact ⟨a, ha, hae⟩
  · have ho := h.ordered.unlink h.id_eq he
    exact ⟨ho.content, ho.author, ho.hot, ho.trending, ho.created⟩

theorem change (h : Coherent t) {old e : Entry} (hold : t.get? e.id = some old)
    (hf : old.filing = e.filing) : Coherent ((t.unlink old).put e) := by
  have herase : (t.entries.erase e.id).insert e.id e = t.entries.insert e.id e := by
    apply ExtTreeMap.ext_getElem?
    intro a
    simp only [getElem?_insert_eq, getElem?_erase_eq]
    split <;> rfl
  constructor
  · intro i a ha
    simp only [get?, put, getElem?_insert_eq] at ha
    split at ha
    · simp_all
    · exact h.id_eq i a ha
  · intro i a ha
    simp only [get?, put, getElem?_insert_eq] at ha
    split at ha
    · rename_i hi
      exact hi ▸ h.lt_nextId e.id old hold
    · exact h.lt_nextId i a ha
  · intro f i
    refine (h.filing f i).trans ?_
    simp only [get?, put, getElem?_insert_eq]
    by_cases hi : e.id = i
    · subst hi
      simp [← hf, show t.entries[e.id]? = some old from hold]
    · simp only [hi, if_false]
      exact Iff.rfl
  · have hnone : (t.entries.erase e.id)[e.id]? = none := by simp
    have ho := (h.ordered.unlink h.id_eq hold).link hnone e
    rw [herase] at ho
    exact ⟨ho.content, ho.author, ho.hot, ho.trending, ho.created⟩

end Coherent

section

variable {t : EntryTable} (h : t.Coherent)
include h

theorem yields_insert {e : Entry} (hf : ∀ id a, t.get? id = some a → a.filing ≠ e.filing) :
    Update.Yields (insert e) t
      (fun id u => id = t.nextId ∧ u.Coherent ∧ u.nextId = t.nextId + 1 ∧
        u.entries = t.entries.insert t.nextId { e with id := t.nextId })
      fun _ _ => False := by
  have hc : ¬ t.byFiling.contains e.filing = true := by
    simp [Std.ExtTreeMap.contains_eq_isSome_getElem?, h.byFiling_eq_none hf]
  unfold EntryTable.insert
  simp only [Update.yields_bind, Update.yields_get]
  rw [if_neg hc]
  simp only [Update.yields_bind, Update.yields_set, Update.yields_pure]
  exact ⟨trivial, h.add (e := { e with id := t.nextId }) rfl hf, trivial, rfl⟩

theorem yields_replace {e old : Entry} (hold : t.get? e.id = some old)
    (hs : sameIdentity old e = true) :
    Update.Yields (replace e) t
      (fun _ u => u.Coherent ∧ u.nextId = t.nextId ∧ u.entries = t.entries.insert e.id e)
      fun _ _ => False := by
  have hf : old.filing = e.filing := by
    simp only [sameIdentity, Bool.and_eq_true, decide_eq_true_eq] at hs
    simp [Entry.filing, hs]
  simp only [replace, Update.yields_bind, Update.yields_get, Update.yields_require, hold,
    Option.some.injEq, forall_eq', hs, if_true, Update.yields_modify]
  exact ⟨⟨h.change hold hf, rfl, rfl⟩, by simp⟩

theorem yields_remove {id : Nat} {e : Entry} (he : t.get? id = some e) :
    Update.Yields (remove id) t
      (fun a u => a = e ∧ u.Coherent ∧ u.nextId = t.nextId ∧ u.entries = t.entries.erase id)
      fun _ _ => False := by
  simp only [remove, Update.yields_bind, Update.yields_get, Update.yields_require, he,
    Option.some.injEq, forall_eq', Update.yields_modify, Update.yields_pure]
  exact ⟨⟨trivial, h.erase he, rfl, trivial⟩, by simp⟩

end

end EntryTable

end TagCatalog
