import TagCatalog.Proofs.Soundness

/-! What the calls of upkeep do to the entries of a sound catalog. They keep it sound, and the only
faults they report are content that is not there and a reply chain that is too long. -/

namespace TagCatalog

/-- Why a call of upkeep may fail: content is not there, or a chain of replies is too long. -/
def Fault.OfLedger (s : Settings) (source : ContentSource) (f : Fault) : Prop :=
  (∃ a, source.at? a = none ∧ f = .contentNotFound a) ∨ f = .depthExceeded s.maxReplyDepth

namespace ContentSource

/-- Content and what it replies to, upwards through at most `hops` replies. -/
def ancestry (source : ContentSource) : (hops : Nat) → Content → List Content
  | 0, c => [c]
  | hops + 1, c =>
    match source.parent? c with
    | some parent => c :: ancestry source hops parent
    | none => [c]

/-- The contents that a refresh goes through; none if it is refused for its depth. -/
def refreshPath (s : Settings) (source : ContentSource) (c : Content) : List Content :=
  if s.maxReplyDepth < c.depth then [] else source.ancestry s.maxReplyDepth c

/-- What stops a refresh once content and what it replies to through at most `hops` replies are up
to date: a parent that is not there, or one reply more. At a root nothing does. -/
def stop? (s : Settings) (source : ContentSource) : (hops : Nat) → Content → Option Fault
  | 0, c => c.parent?.map fun a =>
    if (source.at? a).isNone then .contentNotFound a else .depthExceeded s.maxReplyDepth
  | hops + 1, c =>
    match source.parent? c with
    | some parent => stop? s source hops parent
    | none => c.parent?.map .contentNotFound

def pathAt (s : Settings) (source : ContentSource) (a : Address) : List Content :=
  (source.at? a).elim [] (source.refreshPath s)

/-- The contents above one that is withdrawn that are refreshed then. -/
def pathAbove (s : Settings) (source : ContentSource) (c : Content) : List Content :=
  (source.parent? c).elim [] (source.refreshPath s)

end ContentSource

namespace Entry

/-- The entry brought up to date with each of the contents that it belongs to. -/
def refreshedBy (s : Settings) : List Content → Entry → Entry
  | [], e => e
  | c :: cs, e => refreshedBy s cs (if e.content = c.id then e.refreshed s c else e)

end Entry

namespace ContentSource

variable {s : Settings} {source : ContentSource} {hops : Nat} {c : Content} {f : Fault}

/-- Nothing more is said of a parent that is not there than where it should be. -/
theorem fault_of_parent?_none (hparent : source.parent? c = none)
    (h : c.parent?.map Fault.contentNotFound = some f) :
    ∃ a, c.parent? = some a ∧ source.at? a = none ∧ f = .contentNotFound a := by
  obtain ⟨a, ha, rfl⟩ := Option.map_eq_some_iff.mp h
  exact ⟨a, ha, by simpa [parent?, ha] using hparent, rfl⟩

theorem stop?_ofLedger (h : source.stop? s hops c = some f) : f.OfLedger s source := by
  induction hops generalizing c with
  | zero =>
    obtain ⟨a, -, rfl⟩ := Option.map_eq_some_iff.mp h
    split
    · rename_i hnone
      exact .inl ⟨a, Option.isNone_iff_eq_none.mp hnone, rfl⟩
    · exact .inr rfl
  | succ hops ih =>
    unfold stop? at h
    split at h
    · exact ih h
    · rename_i hparent
      obtain ⟨a, -, hnone, rfl⟩ := fault_of_parent?_none hparent h
      exact .inl ⟨a, hnone, rfl⟩

end ContentSource

namespace Catalog

variable {s : Settings} {source : ContentSource} {c : Catalog}

section

variable {ok : Content → Catalog → Prop} {failed : Fault → Catalog → Prop}

@[simp]
theorem yields_requireContent (a : Address) :
    Update.Yields (source.require a) c ok failed ↔
      (∀ content, source.at? a = some content → ok content c) ∧
        (source.at? a = none → failed (.contentNotFound a) c) := by
  simp [ContentSource.require]

theorem yields_requireParent (content : Content) {ok : Option Content → Catalog → Prop}
    (hok : ∀ parent, source.parent? content = parent → ok parent c)
    (hmissing : ∀ a, content.parent? = some a → source.at? a = none → failed (.contentNotFound a) c) :
    Update.Yields (requireParent source content) c ok failed := by
  unfold requireParent
  split
  · rename_i h
    exact hok none (by simp [ContentSource.parent?, h])
  · rename_i a h
    simp only [Update.yields_bind, yields_requireContent, Update.yields_pure]
    have hread (parent : Content) (hp : source.at? a = some parent) : ok (some parent) c :=
      hok (some parent) (by simp [ContentSource.parent?, h, hp])
    exact ⟨hread, hmissing a h⟩

end

theorem yields_refreshAll (h : c.Sound) (content : Content) (ids : List Nat) (hn : ids.Nodup)
    (hlive : ∀ id ∈ ids, (c.table.get? id).isSome) :
    Update.Yields (ids.forM (refreshEntry s content)) c
      (fun _ d => d.Sound ∧ d.table.nextId = c.table.nextId ∧ ∀ id, d.table.get? id =
        (c.table.get? id).map fun e => if id ∈ ids then e.refreshed s content else e)
      fun _ _ => False := by
  induction ids generalizing c with
  | nil => simp [h]
  | cons i ids ih =>
    obtain ⟨hi, hn⟩ := List.nodup_cons.mp hn
    obtain ⟨e, he⟩ := Option.isSome_iff_exists.mp (hlive i (by simp))
    change Update.Yields (refreshEntry s content i >>= fun _ => ids.forM _) c _ _
    rw [Update.yields_bind]
    refine (yields_refreshEntry h s content he).imp ?_
    intro _ d hh
    obtain ⟨hd, hnext, hentries⟩ := hh
    have hget (id : Nat) :
        d.table.get? id = if i = id then some (e.refreshed s content) else c.table.get? id := by
      simp only [EntryTable.get?, hentries, getElem?_insert_eq]
    refine (ih hd hn ?_).imp ?_
    · intro id hid
      rw [hget]
      split
      · rfl
      · exact hlive id (by simp [hid])
    · intro _ d' hh
      obtain ⟨hd', hnext', hget'⟩ := hh
      refine ⟨hd', hnext'.trans hnext, fun id => ?_⟩
      rw [hget', hget]
      by_cases hid : i = id
      · subst hid
        simp [hi, he]
      · simp [hid, Ne.symm hid]

theorem yields_withdrawAll {β : Type} (h : c.Sound) (idOf : β → Nat) (bs : List β)
    (hn : (bs.map idOf).Nodup) (hlive : ∀ b ∈ bs, (c.table.get? (idOf b)).isSome) :
    Update.Yields (bs.forM fun b => withdrawEntry (idOf b)) c
      (fun _ d => d.Sound ∧ d.table.nextId = c.table.nextId ∧
        ∀ id, d.table.get? id = if id ∈ bs.map idOf then none else c.table.get? id)
      fun _ _ => False := by
  induction bs generalizing c with
  | nil => simp [h]
  | cons b bs ih =>
    obtain ⟨hb, hn⟩ := List.nodup_cons.mp hn
    obtain ⟨e, he⟩ := Option.isSome_iff_exists.mp (hlive b (by simp))
    change Update.Yields (withdrawEntry (idOf b) >>= fun _ => bs.forM _) c _ _
    rw [Update.yields_bind]
    refine (yields_withdrawEntry h he).imp ?_
    intro _ d hh
    obtain ⟨hd, hnext, hentries⟩ := hh
    have hget (id : Nat) :
        d.table.get? id = if idOf b = id then none else c.table.get? id := by
      simp only [EntryTable.get?, hentries, getElem?_erase_eq]
    refine (ih hd hn ?_).imp ?_
    · intro b' hb'
      have hne : idOf b ≠ idOf b' := fun hh => hb (hh ▸ List.mem_map_of_mem hb')
      rw [hget, if_neg hne]
      exact hlive b' (by simp [hb'])
    · intro _ d' hh
      obtain ⟨hd', hnext', hget'⟩ := hh
      refine ⟨hd', hnext'.trans hnext, fun id => ?_⟩
      rw [hget', hget]
      by_cases hid : idOf b = id
      · simp [hid]
      · simp [hid, Ne.symm hid]

/-- The entries are those from before, each brought up to date with its content on a path. -/
def Refreshed (s : Settings) (path : List Content) (c d : Catalog) : Prop :=
  d.table.nextId = c.table.nextId ∧
    ∀ id, d.table.get? id = (c.table.get? id).map (Entry.refreshedBy s path)

theorem Sound.isSome_of_mem_idsOfContent (h : c.Sound) {content id : Nat}
    (hid : id ∈ c.table.idsOfContent content) : (c.table.get? id).isSome := by
  obtain ⟨e, he, -⟩ := h.table.mem_idsOfContent.mp hid
  simp [he]

theorem yields_refreshContent (h : c.Sound) (content : Content) :
    Update.Yields (refreshContent s content) c
      (fun count d => d.Sound ∧ Refreshed s [content] c d ∧
        count = (c.table.idsOfContent content.id).length)
      fun _ _ => False := by
  have hmem (id : Nat) : id ∈ c.table.idsOfContent content.id ↔
      ∃ e, c.table.get? id = some e ∧ e.content = content.id := h.table.mem_idsOfContent
  simp only [refreshContent, Update.yields_bind, Update.yields_get, Update.yields_pure]
  refine (yields_refreshAll h content _ (EntryTable.Coherent.nodup_idsOfContent _ _) ?_).imp ?_
  · exact fun id => h.isSome_of_mem_idsOfContent
  · intro _ d hh
    obtain ⟨hd, hnext, hget⟩ := hh
    refine ⟨hd, ⟨hnext, fun id => ?_⟩, trivial⟩
    rw [hget]
    cases he : c.table.get? id with
    | none => rfl
    | some e =>
      have hc : id ∈ c.table.idsOfContent content.id ↔ e.content = content.id := by
        rw [hmem]
        simp [he]
      simp only [Option.map_some, Entry.refreshedBy, hc]

theorem Refreshed.refl (c : Catalog) : Refreshed s [] c c :=
  ⟨rfl, fun id => by cases c.table.get? id <;> rfl⟩

theorem Refreshed.cons {content : Content} {path : List Content} {d d' : Catalog}
    (h : Refreshed s [content] c d) (h' : Refreshed s path d d') :
    Refreshed s (content :: path) c d' := by
  refine ⟨h'.1.trans h.1, fun id => ?_⟩
  rw [h'.2, h.2, Option.map_map]
  rfl

theorem refreshedBy_place (path : List Content) (e : Entry) :
    (e.refreshedBy s path).content = e.content ∧ (e.refreshedBy s path).author = e.author ∧
      (e.refreshedBy s path).topic = e.topic := by
  induction path generalizing e with
  | nil => exact ⟨rfl, rfl, rfl⟩
  | cons content path ih =>
    unfold Entry.refreshedBy
    split
    · exact ih (e.refreshed s content)
    · exact ih e

theorem Refreshed.idsOfContent_eq {path : List Content} {d : Catalog} (h : Refreshed s path c d)
    (hc : c.Sound) (hd : d.Sound) (content : Nat) :
    d.table.idsOfContent content = c.table.idsOfContent content := by
  refine hd.table.idsOfContent_eq hc.table (fun id => ?_) content
  rw [h.2, Option.map_map]
  exact congrArg (Option.map · (c.table.get? id)) (funext fun e => (refreshedBy_place path e).1)

/-- Refreshing contents one after the other; how many entries each of them has. -/
theorem yields_refreshPath (h : c.Sound) (path : List Content) :
    Update.Yields (path.mapM (refreshContent s)) c
      (fun counts d => d.Sound ∧ Refreshed s path c d ∧
        counts = path.map fun content => (c.table.idsOfContent content.id).length)
      fun _ _ => False := by
  induction path generalizing c with
  | nil => exact ⟨h, .refl c, rfl⟩
  | cons content path ih =>
    simp only [List.mapM_cons, Update.yields_bind, Update.yields_pure]
    refine (yields_refreshContent h content).imp ?_
    intro count d hh
    obtain ⟨hd, hhere, hcount⟩ := hh
    refine (ih hd).imp ?_
    intro counts d' hh
    obtain ⟨hd', hpath, hcounts⟩ := hh
    refine ⟨hd', hhere.cons hpath, ?_⟩
    simp only [hcount, hcounts, hhere.idsOfContent_eq h hd, List.map_cons]

/-- A climb refreshes the contents of its path in order, and only then tells why it goes no further. -/
theorem climb_eq (hops : Nat) (content : Content) : climb s source hops content = do
    let counts ← (source.ancestry hops content).mapM (refreshContent s)
    match source.stop? s hops content with
    | some f => Update.fail f
    | none => return {
        refreshed := counts.sum
        visited := (source.ancestry hops content).map (·.id) } := by
  have hfail {α β : Type} (f : Fault) (k : α → Update Catalog β) :
      Update.fail f >>= k = Update.fail f := rfl
  induction hops generalizing content with
  | zero =>
    unfold climb requireParent
    cases hp : content.parent? with
    | none => simp [ContentSource.ancestry, ContentSource.stop?, hp]
    | some a =>
      cases ha : source.at? a with
      | none => simp [ContentSource.ancestry, ContentSource.stop?, ContentSource.require,
          Update.require, hp, ha, hfail]
      | some parent => simp [ContentSource.ancestry, ContentSource.stop?, ContentSource.require,
          Update.require, hp, ha]
  | succ hops ih =>
    unfold climb requireParent
    cases hp : content.parent? with
    | none =>
      have hparent : source.parent? content = none := by simp [ContentSource.parent?, hp]
      simp [ContentSource.ancestry, ContentSource.stop?, hp, hparent]
    | some a =>
      have hparent : source.parent? content = source.at? a := by simp [ContentSource.parent?, hp]
      cases ha : source.at? a with
      | none => simp [ContentSource.ancestry, ContentSource.stop?, ContentSource.require,
          Update.require, hp, hparent, ha, hfail]
      | some parent =>
        simp only [ContentSource.ancestry, ContentSource.stop?, ContentSource.require,
          Update.require, hparent, ha, ih parent, List.mapM_cons, bind_assoc, pure_bind,
          List.sum_cons, List.map_cons]
        cases source.stop? s hops parent with
        | none => simp [Report.merge]
        | some f => simp [hfail]

/-- What a refresh along a path reports that nothing stops. -/
def refreshReport (c : Catalog) (path : List Content) : Report where
  refreshed := (path.map fun content => (c.table.idsOfContent content.id).length).sum
  visited := path.map (·.id)

theorem yields_climb (h : c.Sound) (hops : Nat) (content : Content) :
    Update.Yields (climb s source hops content) c
      (fun r d => d.Sound ∧ Refreshed s (source.ancestry hops content) c d ∧
        r = d.refreshReport (source.ancestry hops content))
      fun f d => source.stop? s hops content = some f ∧ d.Sound ∧
        Refreshed s (source.ancestry hops content) c d := by
  rw [climb_eq, Update.yields_bind]
  refine (yields_refreshPath h _).mono ?_ (fun _ _ => False.elim)
  intro counts d hh
  obtain ⟨hd, hpath, hcounts⟩ := hh
  split
  · exact ⟨‹_›, hd, hpath⟩
  · refine ⟨hd, hpath, ?_⟩
    simp only [refreshReport, hpath.idsOfContent_eq h hd, hcounts]

theorem yields_refreshUp (h : c.Sound) (content : Content) :
    Update.Yields (refreshUp s source content) c
      (fun r d => d.Sound ∧ Refreshed s (source.refreshPath s content) c d ∧
        r = d.refreshReport (source.refreshPath s content))
      fun f d => f.OfLedger s source ∧ d.Sound ∧ Refreshed s (source.refreshPath s content) c d := by
  unfold refreshUp ContentSource.refreshPath
  split
  · exact ⟨.inr rfl, h, Refreshed.refl c⟩
  · refine (yields_climb h s.maxReplyDepth content).mono (fun _ _ hh => hh) ?_
    intro f d hh
    obtain ⟨hstop, hd⟩ := hh
    exact ⟨ContentSource.stop?_ofLedger hstop, hd⟩

theorem yields_refresh (h : c.Sound) (a : Address) :
    Update.Yields (refresh s source a) c
      (fun r d => d.Sound ∧ Refreshed s (source.pathAt s a) c d ∧
        r = d.refreshReport (source.pathAt s a))
      fun f d => f.OfLedger s source ∧ d.Sound ∧ Refreshed s (source.pathAt s a) c d := by
  simp only [refresh, Update.yields_bind, yields_requireContent]
  constructor
  · intro content hcontent
    simp only [ContentSource.pathAt, hcontent]
    exact yields_refreshUp h content
  · intro ha
    simp only [ContentSource.pathAt, ha]
    exact ⟨.inl ⟨a, ha, rfl⟩, h, Refreshed.refl c⟩

/-- The entries that are kept are those from before, brought up to date on a path; the others are
gone. -/
def Thinned (s : Settings) (keep : Entry → Bool) (path : List Content) (c d : Catalog) : Prop :=
  d.table.nextId = c.table.nextId ∧
    ∀ id, d.table.get? id = ((c.table.get? id).filter keep).map (Entry.refreshedBy s path)

theorem Refreshed.thinned {path : List Content} {d : Catalog} (h : Refreshed s path c d) :
    Thinned s (fun _ => true) path c d := by
  refine ⟨h.1, fun id => ?_⟩
  rw [h.2]
  cases c.table.get? id <;> rfl

theorem Thinned.trans_refreshed {keep : Entry → Bool} {path : List Content} {d d' : Catalog}
    (h : Thinned s keep [] c d) (h' : Refreshed s path d d') : Thinned s keep path c d' := by
  refine ⟨h'.1.trans h.1, fun id => ?_⟩
  rw [h'.2, h.2, Option.map_map]
  rfl

theorem yields_withdrawRest {β : Type} (h : c.Sound) (keep : Entry → Bool) (idOf : β → Nat)
    (bs : List β) (hn : (bs.map idOf).Nodup)
    (hbs : ∀ id, id ∈ bs.map idOf ↔ ∃ e, c.table.get? id = some e ∧ keep e = false) :
    Update.Yields (bs.forM fun b => withdrawEntry (idOf b)) c
      (fun _ d => d.Sound ∧ Thinned s keep [] c d) fun _ _ => False := by
  refine (yields_withdrawAll h idOf bs hn ?_).imp ?_
  · intro b hb
    obtain ⟨e, he, -⟩ := (hbs (idOf b)).mp (List.mem_map_of_mem hb)
    simp [he]
  · intro _ d hh
    obtain ⟨hd, hnext, hget⟩ := hh
    refine ⟨hd, hnext, fun id => ?_⟩
    rw [hget]
    cases he : c.table.get? id with
    | none => simp
    | some e =>
      have hid : id ∈ bs.map idOf ↔ keep e = false := by
        rw [hbs, he]
        simp
      cases hk : keep e with
      | true => simp [hid, hk, Option.filter, Entry.refreshedBy]
      | false => simp [hid, hk, Option.filter]

theorem yields_withdraw (h : c.Sound) (a : Address) :
    Update.Yields (withdraw s source a) c
      (fun r d => d.Sound ∧ ∃ content, source.at? a = some content ∧
        Thinned s (fun e => e.content ≠ content.id) (source.pathAbove s content) c d ∧
        r = { d.refreshReport (source.pathAbove s content) with
          removed := (c.table.idsOfContent content.id).length })
      fun f d => f.OfLedger s source ∧ d.Sound ∧ match source.at? a with
        | none => d = c
        | some content =>
          Thinned s (fun e => e.content ≠ content.id) (source.pathAbove s content) c d := by
  simp only [withdraw, Update.yields_bind, yields_requireContent, Update.yields_get]
  refine ⟨?_, fun ha => ⟨.inl ⟨a, ha, rfl⟩, h, by simp [ha]⟩⟩
  intro content hcontent
  simp only [hcontent]
  refine (yields_withdrawRest (s := s) h (fun e => e.content ≠ content.id) (fun id => id)
    (c.table.idsOfContent content.id) ?_ ?_).mono ?_ (fun _ _ => False.elim)
  · simpa using EntryTable.Coherent.nodup_idsOfContent _ _
  · intro id
    simp [h.table.mem_idsOfContent]
  intro _ d hh
  obtain ⟨hd, hthin⟩ := hh
  refine yields_requireParent content (fun parent hparent => ?_) ?_
  · cases parent with
    | none =>
      have hpath : source.pathAbove s content = [] := by simp [ContentSource.pathAbove, hparent]
      exact ⟨hd, content, rfl, hpath ▸ hthin, by rw [hpath]; rfl⟩
    | some parent =>
      have hpath : source.pathAbove s content = source.refreshPath s parent := by
        simp [ContentSource.pathAbove, hparent]
      simp only [Update.yields_bind, Update.yields_pure]
      refine (yields_refreshUp hd parent).mono ?_ ?_
      · intro _ d' hh
        obtain ⟨hd', hup, hreport⟩ := hh
        rw [← hpath] at hup hreport
        exact ⟨hd', content, rfl, hthin.trans_refreshed hup, by
          simp [hreport, Report.merge, refreshReport]⟩
      · intro f d' hh
        obtain ⟨hf, hd', hup⟩ := hh
        rw [← hpath] at hup
        exact ⟨hf, hd', hthin.trans_refreshed hup⟩
  · intro b hpb hb
    have hpath : source.pathAbove s content = [] := by
      simp [ContentSource.pathAbove, ContentSource.parent?, hpb, hb]
    exact ⟨.inl ⟨b, hb, rfl⟩, hd, hpath ▸ hthin⟩

theorem nodup_orphans (h : c.Sound) (author : String) :
    (((c.table.ofAuthor author).filter fun p => (source.byId? p.content).isNone).map
      AuthorPlace.id).Nodup :=
  (h.table.nodup_ofAuthor author).sublist (List.filter_sublist.map _)

theorem mem_orphans (h : c.Sound) {author : String} {id : Nat} :
    id ∈ ((c.table.ofAuthor author).filter fun p => (source.byId? p.content).isNone).map
      AuthorPlace.id ↔
      ∃ e, c.table.get? id = some e ∧ (e.author = author && (source.byId? e.content).isNone) := by
  simp only [List.mem_map, List.mem_filter, h.table.mem_ofAuthor]
  constructor
  · intro hh
    obtain ⟨_, ⟨⟨e, he, hauthor, rfl⟩, hgone⟩, rfl⟩ := hh
    exact ⟨e, he, by simp [hauthor, show (source.byId? e.content).isNone = true from hgone]⟩
  · intro hh
    obtain ⟨e, he, hk⟩ := hh
    simp only [Bool.and_eq_true, decide_eq_true_eq] at hk
    have hid := h.table.id_eq id e he
    refine ⟨e.authorPlace, ⟨⟨e, ?_, hk.1, rfl⟩, hk.2⟩, hid⟩
    rw [show e.authorPlace.id = id from hid]
    exact he

theorem yields_sweep (h : c.Sound) (author : String) :
    Update.Yields (sweep source author) c
      (fun _ d => d.Sound ∧ Thinned s
        (fun e => !(e.author = author && (source.byId? e.content).isNone)) [] c d)
      fun _ _ => False := by
  simp only [sweep, Update.yields_bind, Update.yields_get, Update.yields_pure]
  refine yields_withdrawRest (s := s) h _ AuthorPlace.id _ (nodup_orphans h author) ?_
  intro id
  simp only [mem_orphans h, Bool.not_eq_false']

theorem yields_credit (h : c.Sound) {id : Nat} (hid : (c.table.get? id).isSome) (payout : Nat) :
    Update.Yields (credit payout id) c (fun _ d => d.Sound ∧ d.table = c.table)
      fun _ _ => False := by
  obtain ⟨e, he⟩ := Option.isSome_iff_exists.mp hid
  simp only [credit, Update.yields_bind, yields_requireEntry, yields_onTotals, Update.yields_pure]
  refine ⟨fun a _ => ?_, by simp [he]⟩
  refine (Totals.yields_addPayout_rows h.totals.topics a.topic payout).imp ?_
  intro _ totals hh
  obtain ⟨htopics, hauthors, hlanguages⟩ := hh
  refine (Totals.yields_addRewards_rows (hauthors ▸ h.totals.authors) a.author a.topic payout).imp ?_
  intro _ totals' hh
  obtain ⟨htopics', hauthors', hlanguages'⟩ := hh
  refine ⟨⟨h.table, h.named, htopics' ▸ htopics, hauthors', ?_⟩, trivial⟩
  rw [hlanguages', hlanguages]
  exact h.totals.languages

theorem yields_creditAll (h : c.Sound) (payout : Nat) (ids : List Nat)
    (hlive : ∀ id ∈ ids, (c.table.get? id).isSome) :
    Update.Yields (ids.forM (credit payout)) c (fun _ d => d.Sound ∧ d.table = c.table)
      fun _ _ => False := by
  let I (rest : List Nat) (d : Catalog) : Prop :=
    (∀ id ∈ rest, (d.table.get? id).isSome) ∧ d.Sound ∧ d.table = c.table
  refine (Update.yields_forM (I := I) ids ?_ ⟨hlive, h, rfl⟩).imp fun _ _ hI => hI.2
  intro id rest d hh
  obtain ⟨hrest, hd, htable⟩ := hh
  refine (yields_credit hd (hrest id (by simp)) payout).imp ?_
  intro _ d' hh
  obtain ⟨hd', htable'⟩ := hh
  exact ⟨fun i hi => htable' ▸ hrest i (by simp [hi]), hd', htable'.trans htable⟩

theorem yields_reward (h : c.Sound) (a : Address) (payout : Nat) :
    Update.Yields (reward s source a payout) c
      (fun r d => d.Sound ∧ Refreshed s (source.pathAt s a) c d ∧
        r = d.refreshReport (source.pathAt s a))
      fun f d => f.OfLedger s source ∧ d.Sound ∧ Refreshed s (source.pathAt s a) c d := by
  simp only [reward, Update.yields_bind, yields_requireContent, Update.yields_get,
    Update.yields_pure]
  refine (yields_refresh h a).imp ?_
  intro r d hh
  obtain ⟨hd, hpath, hreport⟩ := hh
  refine ⟨fun content _ => ?_, fun ha => ⟨.inl ⟨a, ha, rfl⟩, hd, hpath⟩⟩
  refine (yields_creditAll hd payout _ ?_).mono ?_ (fun _ _ => False.elim)
  · exact fun id => hd.isSome_of_mem_idsOfContent
  · intro _ d' hh
    obtain ⟨hd', htable⟩ := hh
    exact ⟨hd', by simpa only [Refreshed, refreshReport, htable] using ⟨hpath, hreport⟩⟩

end Catalog

end TagCatalog
