import TagCatalog.Proofs.Ascent
import TagCatalog.Proofs.TopicDiff

/-! Refreshes over a ledger that stays as it is. What is up to date stays as it is when it is refreshed
again, and it does not matter which of two refreshes comes first. -/

namespace TagCatalog

namespace Ledger

variable {s : Settings} {l : Ledger} {path path' : List Content}

theorem Coherent.stored_of_mem_pathAt (hl : l.Coherent) {a : Address} {p : Content}
    (hp : p ∈ l.source.pathAt s a) : l.byId? p.id = some p := by
  obtain ⟨start, hstart, hup⟩ := ContentSource.repliesTo_of_mem_pathAt hp
  exact hl.stored_of_repliesTo (hl.at?_eq_some.mp hstart).1 hup

theorem Coherent.refreshedBy_comm (hl : l.Coherent) (hpath : ∀ p ∈ path, l.byId? p.id = some p)
    (hpath' : ∀ p ∈ path', l.byId? p.id = some p) (e : Entry) :
    (e.refreshedBy s path).refreshedBy s path' = (e.refreshedBy s path').refreshedBy s path := by
  obtain ⟨hcontent, -⟩ := Catalog.refreshedBy_place (s := s) path e
  obtain ⟨hcontent', -⟩ := Catalog.refreshedBy_place (s := s) path' e
  rw [Entry.refreshedBy_eq hl hpath' (e.refreshedBy s path),
    Entry.refreshedBy_eq hl hpath (e.refreshedBy s path'), hcontent, hcontent',
    Entry.refreshedBy_eq hl hpath e, Entry.refreshedBy_eq hl hpath' e]
  -- Both paths know the content of an entry by its id, so that they refresh it by the same one.
  cases hp : (l.byId? e.content).filter (· ∈ path) with
  | none => rfl
  | some p =>
    cases hp' : (l.byId? e.content).filter (· ∈ path') with
    | none => rfl
    | some p' =>
      obtain ⟨hstored, -⟩ := Option.filter_eq_some_iff.mp hp
      obtain ⟨hstored', -⟩ := Option.filter_eq_some_iff.mp hp'
      obtain rfl := Option.some.inj (hstored.symm.trans hstored')
      rfl

theorem Coherent.refreshedBy_refreshedBy (hl : l.Coherent)
    (hpath : ∀ p ∈ path, l.byId? p.id = some p) (e : Entry) :
    (e.refreshedBy s path).refreshedBy s path = e.refreshedBy s path := by
  obtain ⟨hcontent, -⟩ := Catalog.refreshedBy_place (s := s) path e
  rw [Entry.refreshedBy_eq hl hpath (e.refreshedBy s path), hcontent,
    Entry.refreshedBy_eq hl hpath e]
  cases (l.byId? e.content).filter (· ∈ path) with
  | none => rfl
  | some p => rfl

theorem Coherent.refreshedBy_of_refreshed (hl : l.Coherent)
    (hpath : ∀ p ∈ path, l.byId? p.id = some p) {e : Entry} {content : Content}
    (hstored : l.byId? content.id = some content) (he : e.content = content.id)
    (hsame : e.refreshed s content = e) : e.refreshedBy s path = e := by
  rw [Entry.refreshedBy_eq hl hpath, he, hstored]
  cases hp : (some content).filter (· ∈ path) with
  | none => rfl
  | some p =>
    obtain ⟨hcontent, -⟩ := Option.filter_eq_some_iff.mp hp
    obtain rfl := Option.some.inj hcontent
    exact hsame

end Ledger

/-- The fault that a refresh reports, if any. The contents alone tell it. -/
def ContentSource.refusal? (s : Settings) (source : ContentSource) (a : Address) : Option Fault :=
  match source.at? a with
  | none => some (.contentNotFound a)
  | some start =>
    if s.maxReplyDepth < start.depth then some (.depthExceeded s.maxReplyDepth)
    else source.stop? s s.maxReplyDepth start

namespace Catalog

variable {s : Settings} {source : ContentSource} {c d d' : Catalog} {path : List Content}

theorem yields_refresh_refusal (h : c.Sound) (a : Address) :
    Update.Yields (refresh s source a) c (fun _ _ => source.refusal? s a = none)
      fun f _ => source.refusal? s a = some f := by
  unfold ContentSource.refusal?
  cases ha : source.at? a with
  | none =>
    simp [refresh, Update.yields_bind, yields_requireContent, ha]
  | some start =>
    rw [refresh_eq ha, refreshUp]
    dsimp only
    split
    · rfl
    · rw [climb_eq, Update.yields_bind]
      refine (yields_refreshPath h _).mono (fun counts d _ => ?_) fun _ _ => False.elim
      cases source.stop? s s.maxReplyDepth start with
      | none => rfl
      | some f => rfl

/-- A refresh that returned on one catalog returns on every other, unless it overflows there. -/
theorem refresh_of_refusal (h : c.Sound) {a : Address} (hnone : source.refusal? s a = none)
    (hno : Update.NoOverflow (refresh s source a) c) :
    ∃ d, refresh s source a c = .ok (d.refreshReport (source.pathAt s a)) d ∧ d.Sound ∧
      Refreshed s (source.pathAt s a) c d ∧ d.balance? = c.balance? := by
  cases hrun : refresh s source a c with
  | error halt d =>
    cases halt with
    | overflow => exact absurd hrun (hno d)
    | fault f => cases hnone.symm.trans ((yields_refresh_refusal h a).of_fault hrun)
  | ok r d =>
    obtain ⟨hd, hpath, rfl⟩ := (yields_refresh h a).of_ok hrun
    exact ⟨d, rfl, hd, hpath, (yields_refresh_balance a).of_ok hrun⟩

theorem Refreshed.refreshReport_eq (h : Refreshed s path c d) (hc : c.Sound) (hd : d.Sound)
    (path' : List Content) : d.refreshReport path' = c.refreshReport path' := by
  simp only [refreshReport, h.idsOfContent_eq hc hd]

theorem Reclassified.refreshed_eq {written : Content} {parent : Option Nat} {topics : List Topic}
    (h : Reclassified s written parent topics c d) {id : Nat} {e : Entry}
    (he : d.table.get? id = some e) (hcontent : e.content = written.id) :
    e.refreshed s written = e := by
  rcases h.entry_cases he hcontent with ⟨-, hmade⟩ | ⟨old, -, -, rfl⟩
  · rw [hmade]
    rfl
  · rfl

theorem Reclassified.get?_again {written : Content} {parent : Option Nat} {topics : List Topic}
    (h : Reclassified s written parent topics c d) (h' : Reclassified s written parent topics d d')
    (hd' : d'.Sound) (id : Nat) : d'.table.get? id = d.table.get? id := by
  cases he : d.table.get? id with
  | some e =>
    rw [h'.old id e he]
    by_cases hcontent : e.content = written.id
    · rw [if_neg (by simpa using hcontent), if_pos (h.topic_mem he hcontent),
        h.refreshed_eq he hcontent]
    · rw [if_pos hcontent]
  | none =>
    cases he' : d'.table.get? id with
    | none => rfl
    | some e =>
      -- The first call left an entry under this topic, and there is no second one.
      obtain ⟨htopic, hmade⟩ := h'.new id e he he'
      obtain ⟨i, old, hold, hfiling⟩ := h.there e.topic htopic
      have hid := h'.id_eq_of_topic hd' hold he' (congrArg Filing.content hfiling)
        (congrArg Entry.content hmade) (congrArg Filing.topic hfiling)
      rw [← hid, hold] at he
      cases he

/-- Content that is open and whose parent, if it replies to any, is there. -/
def admits (source : ContentSource) (content : Content) : Bool :=
  content.isOpen && content.parent?.all fun b => (source.at? b).isSome

theorem not_refused {a : Address} {content : Content} {f : Fault}
    (hcontent : source.at? a = some content) (hadmits : admits source content = true) :
    ¬ Refused source a f := by
  obtain ⟨hopen, hparent⟩ := Bool.and_eq_true_iff.mp hadmits
  intro hrefused
  cases hrefused with
  | missing hnone => cases hnone.symm.trans hcontent
  | closed other hother hclosed =>
    obtain rfl := Option.some.inj (hcontent.symm.trans hother)
    cases hopen.symm.trans hclosed
  | orphaned other hother b hb hmissing =>
    obtain rfl := Option.some.inj (hcontent.symm.trans hother)
    simp [hb, hmissing] at hparent

theorem exists_fault_of_not_admits {a : Address} {content : Content}
    (hcontent : source.at? a = some content) (hadmits : admits source content = false) :
    ∃ f, classify s source a c = .error (.fault f) c := by
  simp only [classify, ContentSource.require, hcontent, Update.require, pure_bind]
  by_cases hopen : content.isOpen = true
  · cases hparent : content.parent? with
    | none => simp [admits, hopen, hparent] at hadmits
    | some b =>
      have hmissing : source.at? b = none := by simpa [admits, hopen, hparent] using hadmits
      simp only [hopen, if_true, requireParent, hparent, ContentSource.require, hmissing]
      exact ⟨_, rfl⟩
  · simp only [hopen]
    exact ⟨_, rfl⟩

/-- Whether classifying is refused is told by the contents alone. -/
theorem yields_classify_admitted (a : Address) :
    Update.Yields (classify s source a) c (fun _ _ => ∀ f, ¬ Refused source a f)
      fun _ _ => True := by
  cases hcontent : source.at? a with
  | none => simp [classify, Update.yields_bind, yields_requireContent, hcontent]
  | some content =>
    cases hadmits : admits source content with
    | true => exact .of_forall (fun _ _ _ => not_refused hcontent hadmits) fun _ _ => trivial
    | false =>
      obtain ⟨f, hf⟩ := exists_fault_of_not_admits (s := s) (c := c) hcontent hadmits
      rw [Update.Yields, hf]
      trivial

theorem classify_again (h : c.Sound) {a : Address} {r : Report}
    (hrun : classify s source a c = .ok r d) (hno : Update.NoOverflow (classify s source a) d) :
    ∃ r', classify s source a d = .ok r' d ∧ r'.created = 0 ∧ r'.removed = 0 := by
  obtain ⟨hd, content, hcontent, -, heffect⟩ := (yields_classify h a).of_ok hrun
  cases hrun' : classify s source a d with
  | error halt d' =>
    cases halt with
    | overflow => exact absurd hrun' (hno d')
    | fault f =>
      obtain ⟨-, hrefused⟩ := (yields_classify hd a).of_fault hrun'
      exact absurd hrefused ((yields_classify_admitted a).of_ok hrun f)
  | ok r' d' =>
    obtain ⟨hd', content', hcontent', -, heffect'⟩ := (yields_classify hd a).of_ok hrun'
    obtain rfl := Option.some.inj (hcontent.symm.trans hcontent')
    obtain ⟨content', hcontent', hreport, hissues⟩ := (yields_classify_report hd a).of_ok hrun'
    obtain rfl := Option.some.inj (hcontent.symm.trans hcontent')
    have hcarries := (yields_classify_carries a).of_ok hrun'
    rw [heffect.topicSet_eq hd] at hreport
    have hcreated : r'.created = 0 := by simp [hreport, Report.ofDiff]
    have hremoved : r'.removed = 0 := by simp [hreport, Report.ofDiff]
    have hnext := hissues.nextId
    rw [hcreated] at hnext
    have hget := heffect.get?_again heffect' hd'
    have hsame : d' = d := hd.ext hd' hnext hget hcarries
    exact ⟨r', by rw [hsame], hcreated, hremoved⟩

theorem Refreshed.entriesOfContent_eq (h : Refreshed s path c d) (hc : c.Sound) (hd : d.Sound)
    {content : Nat} (hsame : ∀ id e, c.table.get? id = some e → e.content = content →
      e.refreshedBy s path = e) : d.entriesOfContent content = c.entriesOfContent content := by
  rw [entriesOfContent, entriesOfContent, h.idsOfContent_eq hc hd]
  refine List.filterMap_congr fun id hid => ?_
  obtain ⟨e, he, hcontent⟩ := hc.table.mem_idsOfContent.mp hid
  rw [h.2, he, Option.map_some, hsame id e he hcontent]

section

variable {l : Ledger} {a b : Address} (hl : l.Coherent) (hc : c.Sound)
include hl hc

theorem refresh_again {r : Report} (hrun : refresh s l.source a c = .ok r d)
    (hno : Update.NoOverflow (refresh s l.source a) d) : refresh s l.source a d = .ok r d := by
  obtain ⟨hd, hpath, rfl⟩ := (yields_refresh hc a).of_ok hrun
  have hnone := (yields_refresh_refusal hc a).of_ok hrun
  obtain ⟨d', hrun', hd', hpath', hbalance'⟩ := refresh_of_refusal hd hnone hno
  have hget (id : Nat) : d'.table.get? id = d.table.get? id := by
    rw [hpath'.2, hpath.2, Option.map_map]
    exact congrArg (Option.map · (c.table.get? id))
      (funext (hl.refreshedBy_refreshedBy fun p hp => hl.stored_of_mem_pathAt hp))
  have hsame : d' = d := hd.ext hd' hpath'.1 hget (.of_eq hbalance')
  rw [hrun', hsame]

theorem refresh_comm {ra rb : Report} {da db : Catalog} (ha : refresh s l.source a c = .ok ra da)
    (hb : refresh s l.source b c = .ok rb db) (hnob : Update.NoOverflow (refresh s l.source b) da)
    (hnoa : Update.NoOverflow (refresh s l.source a) db) :
    ∃ d, refresh s l.source b da = .ok rb d ∧ refresh s l.source a db = .ok ra d := by
  obtain ⟨hda, hpatha, rfl⟩ := (yields_refresh hc a).of_ok ha
  obtain ⟨hdb, hpathb, rfl⟩ := (yields_refresh hc b).of_ok hb
  obtain ⟨dab, hrunb, hdab, hpathb', hbalanceb⟩ :=
    refresh_of_refusal hda ((yields_refresh_refusal hc b).of_ok hb) hnob
  obtain ⟨dba, hruna, hdba, hpatha', hbalancea⟩ :=
    refresh_of_refusal hdb ((yields_refresh_refusal hc a).of_ok ha) hnoa
  -- Entries, ids and payouts come out the same, and a sound catalog holds nothing else.
  have hget (id : Nat) : dba.table.get? id = dab.table.get? id := by
    rw [hpatha'.2, hpathb.2, hpathb'.2, hpatha.2, Option.map_map, Option.map_map]
    exact congrArg (Option.map · (c.table.get? id)) (funext (hl.refreshedBy_comm
      (fun p hp => hl.stored_of_mem_pathAt hp) fun p hp => hl.stored_of_mem_pathAt hp))
  have hnext : dba.table.nextId = dab.table.nextId := by
    rw [hpatha'.1, hpathb.1, hpathb'.1, hpatha.1]
  have hbalance : dba.balance? = dab.balance? := by
    rw [hbalancea, (yields_refresh_balance b).of_ok hb, hbalanceb,
      (yields_refresh_balance a).of_ok ha]
  have hsame : dba = dab := hdab.ext hdba hnext hget (.of_eq hbalance)
  refine ⟨dab, ?_, ?_⟩
  · rw [hrunb, hpathb'.refreshReport_eq hda hdab, hpatha.refreshReport_eq hc hda,
      hpathb.refreshReport_eq hc hdb]
  · rw [hruna, hpatha'.refreshReport_eq hdb hdba, hpathb.refreshReport_eq hc hdb,
      hpatha.refreshReport_eq hc hda, hsame]

theorem classify_refresh {r r' : Report} (hrun : classify s l.source a c = .ok r d)
    (hrun' : refresh s l.source b d = .ok r' d') : ∃ content, l.at? a = some content ∧
      d'.entriesOfContent content.id = d.entriesOfContent content.id := by
  obtain ⟨hd, content, hcontent, -, heffect⟩ := (yields_classify hc a).of_ok hrun
  obtain ⟨hd', hpath, -⟩ := (yields_refresh hd b).of_ok hrun'
  refine ⟨content, hcontent, hpath.entriesOfContent_eq hd hd' fun id e he hec => ?_⟩
  exact hl.refreshedBy_of_refreshed (fun p hp => hl.stored_of_mem_pathAt hp)
    (hl.at?_eq_some.mp hcontent).1 hec (heffect.refreshed_eq he hec)

end

end Catalog

variable {n : Node} {F : Filed}

/-- With the ledger as it is, classifying twice does what classifying once does, and so does refreshing;
what was classified stays up to date when anything is refreshed; and two refreshes that return lead to
the same catalog in either order. -/
theorem Course.refreshes_settle (h : Course n F) (s : Settings) :
    (∀ a r d, Catalog.classify s n.ledger.source a n.catalog = .ok r d →
      (Update.NoOverflow (Catalog.classify s n.ledger.source a) d →
        ∃ r', Catalog.classify s n.ledger.source a d = .ok r' d ∧ r'.created = 0 ∧ r'.removed = 0) ∧
      ∀ b r' d', Catalog.refresh s n.ledger.source b d = .ok r' d' →
        ∃ content, n.ledger.at? a = some content ∧
          d'.entriesOfContent content.id = d.entriesOfContent content.id) ∧
    (∀ a r d, Catalog.refresh s n.ledger.source a n.catalog = .ok r d →
      Update.NoOverflow (Catalog.refresh s n.ledger.source a) d →
      Catalog.refresh s n.ledger.source a d = .ok r d) ∧
    ∀ a b ra rb da db, Catalog.refresh s n.ledger.source a n.catalog = .ok ra da →
      Catalog.refresh s n.ledger.source b n.catalog = .ok rb db →
      Update.NoOverflow (Catalog.refresh s n.ledger.source b) da →
      Update.NoOverflow (Catalog.refresh s n.ledger.source a) db →
      ∃ d, Catalog.refresh s n.ledger.source b da = .ok rb d ∧
        Catalog.refresh s n.ledger.source a db = .ok ra d := by
  have hh := h.holds
  refine ⟨fun a r d hrun => ⟨?_, fun b r' d' hrun' => ?_⟩, fun a r d hrun hno => ?_, ?_⟩
  · exact Catalog.classify_again hh.catalog hrun
  · exact Catalog.classify_refresh hh.ledger hh.catalog hrun hrun'
  · exact Catalog.refresh_again hh.ledger hh.catalog hrun hno
  · intro a b ra rb da db ha hb hnob hnoa
    exact Catalog.refresh_comm hh.ledger hh.catalog ha hb hnob hnoa

/-- The reply is refreshed with the post above it, so that the paths of the two share the post. -/
theorem Course.refreshes_settle_answerVoted :
    let file := Catalog.classify {} answerVoted.ledger.source ⟨"bob", "answer"⟩
    let reply := Catalog.refresh {} answerVoted.ledger.source ⟨"bob", "answer"⟩
    let post := Catalog.refresh {} answerVoted.ledger.source ⟨"alice", "morning"⟩
    ∃ F, Course answerVoted F ∧
      (∃ r d, file answerVoted.catalog = .ok r d ∧
        (∃ r', file d = .ok r' d ∧ r'.created = 0 ∧ r'.removed = 0) ∧
        ∃ r' d', reply d = .ok r' d' ∧ ∃ content,
          answerVoted.ledger.at? ⟨"bob", "answer"⟩ = some content ∧
          d'.entriesOfContent content.id = d.entriesOfContent content.id) ∧
      (∃ r d, reply answerVoted.catalog = .ok r d ∧ reply d = .ok r d) ∧
      ∃ ra rb da db d, reply answerVoted.catalog = .ok ra da ∧ post answerVoted.catalog = .ok rb db ∧
        post da = .ok rb d ∧ reply db = .ok ra d := by
  intro file reply post
  let c := answerVoted.catalog
  obtain ⟨F, hF⟩ := exists_history_answerVoted
  obtain ⟨hclassify, hrefresh, hcomm⟩ := Course.refreshes_settle hF.course {}
  have hfile : Update.returns file c = true := by decide +kernel
  have hfiled : Update.returns file (Catalog.afterCall file c) = true := by decide +kernel
  have hreplyFiled : Update.returns reply (Catalog.afterCall file c) = true := by decide +kernel
  have hreply : Update.returns reply c = true := by decide +kernel
  have hpost : Update.returns post c = true := by decide +kernel
  have hreplied : Update.returns reply (Catalog.afterCall reply c) = true := by decide +kernel
  have hpostReplied : Update.returns post (Catalog.afterCall reply c) = true := by decide +kernel
  have hreplyPosted : Update.returns reply (Catalog.afterCall post c) = true := by decide +kernel
  obtain ⟨rf, hrunFile⟩ := Update.exists_ok_of_returns hfile .empty
  obtain ⟨ra, hrunReply⟩ := Update.exists_ok_of_returns hreply .empty
  obtain ⟨rb, hrunPost⟩ := Update.exists_ok_of_returns hpost .empty
  obtain ⟨hagain, hother⟩ := hclassify _ _ _ hrunFile
  obtain ⟨r', hrunAfter⟩ := Update.exists_ok_of_returns hreplyFiled .empty
  obtain ⟨d, hab, hba⟩ := hcomm _ _ _ _ _ _ hrunReply hrunPost
    (Update.ne_overflow_of_returns hpostReplied) (Update.ne_overflow_of_returns hreplyPosted)
  exact ⟨F, hF.course,
    ⟨rf, _, hrunFile, hagain (Update.ne_overflow_of_returns hfiled), r', _, hrunAfter,
      hother _ _ _ hrunAfter⟩,
    ⟨ra, _, hrunReply, hrefresh _ _ _ hrunReply (Update.ne_overflow_of_returns hreplied)⟩,
    ra, rb, _, _, d, hrunReply, hrunPost, hab, hba⟩

end TagCatalog
