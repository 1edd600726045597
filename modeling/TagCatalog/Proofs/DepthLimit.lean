import TagCatalog.Proofs.ReplyDepth
import TagCatalog.Proofs.RowFrames

/-! Rejections for depth. The stored depth is looked at before anything is refreshed, but after the
entries of closed content are withdrawn; where it tells too little, the chain is refreshed as far as
the limit before it is found too long. -/

namespace TagCatalog

namespace Catalog

variable {s : Settings} {source : ContentSource} {c d : Catalog}

/-- What a refresh leaves that was to start at some content and was rejected for depth: everything
as it was if the stored depth told, and otherwise a chain whose entries are refreshed as far as the
limit. -/
structure Rejected (s : Settings) (source : ContentSource) (start : Content) (c d : Catalog) :
    Prop where
  sound : d.Sound
  unchanged : s.maxReplyDepth < start.depth → d = c
  refreshed : Refreshed s (source.refreshPath s start) c d
  standing : c.Standing d
  paid : d.balance? = c.balance?
  links : start.depth ≤ s.maxReplyDepth → source.Links (s.maxReplyDepth + 1) start

/-- The catalog without the entries of some content. The totals are those of the other entries, and
a row that stays holds what was paid. -/
structure Without (content : Nat) (c d : Catalog) : Prop where
  sound : d.Sound
  entries : ∀ id, d.table.get? id = (c.table.get? id).filter (·.content ≠ content)
  paid : c.totals.Closes d.totals

theorem Standing.of_refreshed {path : List Content} (hc : c.Sound) (hd : d.Sound)
    (h : Refreshed s path c d) : c.Standing d := by
  refine .of_authorships hc hd fun id => ?_
  rw [h.2, Option.map_map]
  refine congrArg (Option.map · (c.table.get? id)) (funext fun e => ?_)
  obtain ⟨-, hauthor, htopic⟩ := refreshedBy_place (s := s) path e
  exact congrArg₂ Authorship.mk hauthor htopic

theorem links_of_stop? {hops max : Nat} {content : Content}
    (h : source.stop? s hops content = some (.depthExceeded max)) :
    source.Links (hops + 1) content := by
  induction hops generalizing content with
  | zero =>
    obtain ⟨a, ha, hf⟩ := Option.map_eq_some_iff.mp h
    cases hparent : source.at? a with
    | none => simp [hparent] at hf
    | some parent => exact ⟨parent, by simp [ContentSource.parent?, ha, hparent], trivial⟩
  | succ hops ih =>
    unfold ContentSource.stop? at h
    split at h
    · exact ⟨_, ‹_›, ih h⟩
    · simp at h

theorem yields_climb_links (h : c.Sound) (hops : Nat) (content : Content) :
    Update.Yields (climb s source hops content) c (fun _ _ => True) fun f _ =>
      f = .depthExceeded s.maxReplyDepth → source.Links (hops + 1) content := by
  refine (yields_climb h hops content).mono (fun _ _ _ => trivial) ?_
  rintro _ d ⟨hstop, -⟩ rfl
  exact links_of_stop? hstop

theorem yields_refreshUp_rejected (h : c.Sound) (start : Content) :
    Update.Yields (refreshUp s source start) c (fun _ _ => True) fun f d =>
      f = .depthExceeded s.maxReplyDepth → Rejected s source start c d := by
  have hdepth : Update.Yields (refreshUp s source start) c (fun _ _ => True) fun f d =>
      f = .depthExceeded s.maxReplyDepth → (s.maxReplyDepth < start.depth → d = c) ∧
        (start.depth ≤ s.maxReplyDepth → source.Links (s.maxReplyDepth + 1) start) := by
    unfold refreshUp
    split
    · rename_i hdeep
      exact fun _ => ⟨fun _ => rfl, fun hle => absurd hdeep (Nat.not_lt.mpr hle)⟩
    · rename_i hle
      exact (yields_climb_links h _ start).mono (fun _ _ _ => trivial) fun _ _ hlinks hf =>
        ⟨fun hdeep => absurd hdeep hle, fun _ => hlinks hf⟩
  have hall := (yields_refreshUp h start).and ((yields_refreshUp_balance start).and hdepth)
  refine hall.mono (fun _ _ _ => trivial) fun f d hh hf => ?_
  obtain ⟨⟨-, hd, hrefreshed⟩, hbalance, hdepth⟩ := hh
  obtain ⟨hunchanged, hlinks⟩ := hdepth hf
  exact ⟨hd, hunchanged, hrefreshed, .of_refreshed h hd hrefreshed, hbalance, hlinks⟩

theorem yields_refresh_rejected (h : c.Sound) (a : Address) :
    Update.Yields (refresh s source a) c (fun _ _ => True) fun f d =>
      f = .depthExceeded s.maxReplyDepth →
        ∃ start, source.at? a = some start ∧ Rejected s source start c d := by
  simp only [refresh, Update.yields_bind, yields_requireContent]
  refine ⟨fun start hstart => ?_, fun _ hf => by cases hf⟩
  exact (yields_refreshUp_rejected h start).mono (fun _ _ _ => trivial) fun _ _ hh hf =>
    ⟨start, hstart, hh hf⟩

theorem yields_reward_rejected (h : c.Sound) (a : Address) (payout : Nat) :
    Update.Yields (reward s source a payout) c (fun _ _ => True) fun f d =>
      f = .depthExceeded s.maxReplyDepth →
        ∃ start, source.at? a = some start ∧ Rejected s source start c d := by
  simp only [reward, Update.yields_bind, yields_requireContent, Update.yields_get,
    Update.yields_pure]
  refine ((yields_refresh h a).and (yields_refresh_rejected h a)).mono ?_ fun _ _ hh => hh.2
  intro _ d hh
  obtain ⟨⟨hd, -⟩, -⟩ := hh
  refine ⟨fun content _ => ?_, fun _ hf => by cases hf⟩
  -- A credit reports no fault, so that the rejection is that of the refresh.
  refine (yields_creditAll hd payout _ ?_).mono (fun _ _ _ => trivial) fun _ _ => False.elim
  intro id hid
  obtain ⟨e, he, -⟩ := hd.table.mem_idsOfContent.mp hid
  simp [he]

theorem yields_withdraw_rejected (h : c.Sound) (a : Address) :
    Update.Yields (withdraw s source a) c (fun _ _ => True) fun f d =>
      f = .depthExceeded s.maxReplyDepth → ∃ content start between, source.at? a = some content ∧
        source.parent? content = some start ∧ Without content.id c between ∧
        Rejected s source start between d := by
  simp only [withdraw, Update.yields_bind, yields_requireContent, Update.yields_get]
  refine ⟨fun content hcontent => ?_, fun _ hf => by cases hf⟩
  have hthin := yields_withdrawRest (s := s) h (fun e => e.content ≠ content.id) (fun id => id)
    (c.table.idsOfContent content.id) (by simpa using EntryTable.Coherent.nodup_idsOfContent _ _)
    fun id => by simp [h.table.mem_idsOfContent]
  refine (hthin.and (yields_withdrawAll_closes (fun id => id) _)).mono ?_ fun _ _ hh => hh.1.elim
  intro _ between hh
  obtain ⟨⟨hsound, hthin⟩, hcloses⟩ := hh
  have hwithout : Without content.id c between :=
    ⟨hsound, fun id => (hthin.2 id).trans (Option.map_id' ..), hcloses⟩
  refine yields_requireParent content (fun parent hparent => ?_) fun _ _ _ hf => by cases hf
  cases parent with
  | none => trivial
  | some start =>
    simp only [Update.yields_bind, Update.yields_pure]
    exact (yields_refreshUp_rejected hsound start).mono (fun _ _ _ => trivial) fun _ _ hh hf =>
      ⟨content, start, between, hcontent, hparent, hwithout, hh hf⟩

end Catalog

namespace Operation

/-- The content at which an operation starts to refresh: what it names, or the parent of that if it
withdraws it. -/
def start? (l : Ledger) : Operation → Option Content
  | .vote _ a _ | .reward a _ => l.at? a
  | .payoutUpdate a => (l.at? a).bind fun c => if c.isOpen then some c else l.source.parent? c
  | .comment .. | .delete _ | .transfer .. | .other => none

/-- The content whose entries an operation withdraws before it refreshes. -/
def withdrawn? (l : Ledger) : Operation → Option Content
  | .payoutUpdate a => (l.at? a).filter (!·.isOpen)
  | .vote .. | .reward .. | .comment .. | .delete _ | .transfer .. | .other => none

/-- The operation withdrew what it was to withdraw, and then its refresh was rejected. -/
def Rejected (op : Operation) (s : Settings) (l : Ledger) (c d : Catalog) : Prop :=
  ∃ start between, op.start? l = some start ∧ (op.withdrawn? l = none → between = c) ∧
    (∀ gone, op.withdrawn? l = some gone → Catalog.Without gone.id c between) ∧
    Catalog.Rejected s l.source start between d

end Operation

variable {s : Settings} {n : Node} {F : Filed} {op : Operation} {c d : Catalog}

theorem Catalog.yields_apply_rejected {l : Ledger} (h : c.Sound) (op : Operation) :
    Update.Yields (apply s l.source op) c (fun _ _ => True) fun f d =>
      f = .depthExceeded s.maxReplyDepth → op.Rejected s l c d := by
  have hrefresh {a : Address} {m : Update Catalog Report} (hstart : op.start? l = l.at? a)
      (hnone : op.withdrawn? l = none)
      (hm : Update.Yields m c (fun _ _ => True) fun f d => f = .depthExceeded s.maxReplyDepth →
        ∃ start, l.source.at? a = some start ∧ Rejected s l.source start c d) :
      Update.Yields m c (fun _ _ => True) fun f d =>
        f = .depthExceeded s.maxReplyDepth → op.Rejected s l c d := by
    refine hm.mono (fun _ _ _ => trivial) fun f d hh hf => ?_
    obtain ⟨start, hat, hrejected⟩ := hh hf
    refine ⟨start, c, hstart.trans hat, fun _ => rfl, ?_, hrejected⟩
    intro gone hgone
    cases hnone.symm.trans hgone
  cases op with
  | comment a parentAuthor parentPermlink =>
    simp only [apply, Update.yields_bind, yields_requireContent]
    refine ⟨fun content _ => ?_, fun _ hf => by cases hf⟩
    split
    · refine (yields_classify h a).mono (fun _ _ _ => trivial) fun f _ hh hf => ?_
      obtain ⟨-, hrefused⟩ := hh
      subst hf
      cases hrefused
    · trivial
  | vote voter a weight => exact hrefresh rfl rfl (yields_refresh_rejected h a)
  | reward a payout => exact hrefresh rfl rfl (yields_reward_rejected h a payout)
  | payoutUpdate a =>
    simp only [apply, Update.yields_bind, yields_requireContent]
    refine ⟨fun content hcontent => ?_, fun _ hf => by cases hf⟩
    have hat : l.at? a = some content := hcontent
    split
    · rename_i hopen
      have hstart : (Operation.payoutUpdate a).start? l = l.at? a := by
        simp [Operation.start?, hat, hopen]
      have hnone : (Operation.payoutUpdate a).withdrawn? l = none := by
        simp [Operation.withdrawn?, hat, Option.filter, hopen]
      exact hrefresh hstart hnone (yields_refresh_rejected h a)
    · rename_i hclosed
      refine (yields_withdraw_rejected h a).mono (fun _ _ _ => trivial) fun f d hh hf => ?_
      obtain ⟨content', start, between, hcontent', hparent, hwithout, hrejected⟩ := hh hf
      obtain rfl := Option.some.inj (hcontent.symm.trans hcontent')
      have hstart : (Operation.payoutUpdate a).start? l = some start := by
        simp [Operation.start?, hat, hclosed, hparent]
      have hgone : (Operation.payoutUpdate a).withdrawn? l = some content := by
        simp [Operation.withdrawn?, hat, Option.filter, hclosed]
      refine ⟨start, between, hstart, ?_, ?_, hrejected⟩
      · intro hnone
        cases hgone.symm.trans hnone
      · intro gone hh
        obtain rfl := Option.some.inj (hgone.symm.trans hh)
        exact hwithout
  | delete a =>
    exact (yields_sweep (s := s) h a.author).mono (fun _ _ _ => trivial) fun _ _ => False.elim
  | transfer sender recipient amount memo => trivial
  | other => trivial

theorem Operation.stored_of_start? {l : Ledger} (hl : l.Coherent) {start : Content}
    (h : op.start? l = some start) : l.byId? start.id = some start := by
  have hstored {a : Address} {c : Content} (hc : l.at? a = some c) : l.byId? c.id = some c :=
    (hl.at?_eq_some.mp hc).1
  cases op with
  | vote voter a weight => exact hstored h
  | reward a payout => exact hstored h
  | payoutUpdate a =>
    obtain ⟨c, hc, hstart⟩ := Option.bind_eq_some_iff.mp h
    split at hstart
    · obtain rfl := Option.some.inj hstart
      exact hstored hc
    · obtain ⟨b, -, hb⟩ := Option.bind_eq_some_iff.mp hstart
      exact hstored hb
  | _ => cases h

/-- A rejection for depth comes from a refresh, of content that an operation names or of the parent
of content that it withdraws. Past what is withdrawn nothing changes, unless the stored depth is within
the limit and the chain above is not, which takes writes that disagree on a parent. -/
theorem Course.depth_rejection (h : Course n F) {max : Nat}
    (hd : Catalog.apply s n.ledger.source op n.catalog = .error (.fault (.depthExceeded max)) d) :
    max = s.maxReplyDepth ∧ ∃ start between, n.ledger.byId? start.id = some start ∧
      op.start? n.ledger = some start ∧ (op.withdrawn? n.ledger = none → between = n.catalog) ∧
      (∀ gone, op.withdrawn? n.ledger = some gone →
        Catalog.Without gone.id n.catalog between) ∧
      Catalog.Rejected s n.ledger.source start between d ∧
      ∀ parentOf, Steady parentOf n → s.maxReplyDepth < start.depth := by
  have hh := h.holds
  have hmax : max = s.maxReplyDepth := by
    obtain ⟨⟨a, -, hf⟩ | hf, -⟩ := (Catalog.yields_apply hh.catalog op).of_fault hd
    · cases hf
    · exact Fault.depthExceeded.inj hf
  subst hmax
  obtain ⟨start, between, hstart, hsame, hwithout, hrejected⟩ :=
    (Catalog.yields_apply_rejected hh.catalog op).of_fault hd rfl
  have hstored := Operation.stored_of_start? hh.ledger hstart
  refine ⟨rfl, start, between, hstored, hstart, hsame, hwithout, hrejected, ?_⟩
  intro parentOf hsteady
  obtain ⟨hl, hplace⟩ := hsteady.inPlace
  by_contra hle
  have hlinks := hrejected.links (Nat.le_of_not_lt hle)
  have hdepth := hplace.links_le hl hstored hlinks
  omega

namespace Node

def fault? (s : Settings) (m : Move) (n : Node) : Option Fault :=
  match run s m n with
  | .error (.fault f) _ => some f
  | _ => none

theorem apply_of_fault? {f : Fault} (h : n.fault? s (.apply op) = some f) :
    Catalog.apply s n.ledger.source op n.catalog =
      .error (.fault f) (n.next s (.apply op)).catalog := by
  have hrun : run s (.apply op) n = match Catalog.apply s n.ledger.source op n.catalog with
      | .ok _ d => .ok ⟨⟩ { n with catalog := d }
      | .error halt d => .error halt { n with catalog := d } := by
    simp only [run, onCatalog, Update.within, bind, EStateM.bind, get, getThe, MonadStateOf.get,
      EStateM.get]
    cases Catalog.apply s n.ledger.source op n.catalog <;> rfl
  unfold fault? at h
  unfold next
  rw [hrun] at h ⊢
  cases happly : Catalog.apply s n.ledger.source op n.catalog with
  | ok r d => simp [happly] at h
  | error halt d =>
    cases halt with
    | fault f' =>
      simp only [happly, Option.some.injEq] at h
      rw [h]
    | overflow => simp [happly] at h

end Node

/-- One reply above content is as far as a refresh may go. -/
def oneReply : Settings := { maxReplyDepth := 1 }

def artReply (author permlink : String) (parent : Address) : Content :=
  { (Content.post ⟨author, permlink⟩ .epoch).replyTo parent with
    cashoutTime := some .last
    jsonMetadata := "\x7b\"tags\":[\"art\"]\x7d" }

/-- The last of three replies in a chain is filed, and its payout window closes. -/
def deepClosed : Node := Node.nexts oneReply
  [.upsert (rootPost "news"), .upsert (artReply "bob" "answer" ⟨"alice", "morning"⟩),
    .upsert (artReply "carol" "aside" ⟨"bob", "answer"⟩),
    .upsert (artReply "dave" "note" ⟨"carol", "aside"⟩),
    .apply (.comment ⟨"dave", "note"⟩ "carol" "aside"), .closePayout ⟨"dave", "note"⟩] {}

theorem exists_history_deepClosed : ∃ F, History oneReply deepClosed F :=
  History.exists_nexts ⟨_, .start⟩ (by decide +kernel)

/-- The entry of the closed reply is withdrawn before its parent is found too deep. -/
theorem History.not_depth_unchanged :
    ¬ ∀ s n F op max d, s.validate = .ok () → History s n F →
      Catalog.apply s n.ledger.source op n.catalog = .error (.fault (.depthExceeded max)) d →
      d = n.catalog := by
  intro h
  obtain ⟨F, hF⟩ := exists_history_deepClosed
  have hfault : deepClosed.fault? oneReply (.apply (.payoutUpdate ⟨"dave", "note"⟩)) =
      some (.depthExceeded 1) := by decide +kernel
  have hsame := h oneReply deepClosed F _ 1 _ rfl hF (Node.apply_of_fault? hfault)
  have hbefore : deepClosed.catalog.table.size = 1 := by decide +kernel
  have hafter : (deepClosed.next oneReply
      (.apply (.payoutUpdate ⟨"dave", "note"⟩))).catalog.table.size = 0 := by decide +kernel
  rw [hsame, hbefore] at hafter
  cases hafter

/-- A reply is filed, edited into a reply to itself and voted for. -/
def selfReplied : Node := Node.nexts oneReply
  [.upsert (rootPost "news"), .upsert (artReply "bob" "answer" ⟨"alice", "morning"⟩),
    .apply (.comment ⟨"bob", "answer"⟩ "alice" "morning"),
    .upsert (artReply "bob" "answer" ⟨"bob", "answer"⟩),
    .applyVote ⟨"bob", "answer"⟩ 5 1] {}

theorem exists_history_selfReplied : ∃ F, History oneReply selfReplied F :=
  History.exists_nexts ⟨_, .start⟩ (by decide +kernel)

/-- The stored depth is one, so that the entries are refreshed before the rejection. -/
theorem Course.depth_rejection_selfReplied :
    ∃ F d start, Course selfReplied F ∧
      Catalog.apply oneReply selfReplied.ledger.source (.vote "carol" ⟨"bob", "answer"⟩ 1)
        selfReplied.catalog = .error (.fault (.depthExceeded 1)) d ∧
      selfReplied.ledger.at? ⟨"bob", "answer"⟩ = some start ∧
      Catalog.Rejected oneReply selfReplied.ledger.source start selfReplied.catalog d ∧
      (selfReplied.catalog.entriesOfContent 2).map (·.netVotes) = [0, 0] ∧
      (d.entriesOfContent 2).map (·.netVotes) = [1, 1] := by
  obtain ⟨F, hF⟩ := exists_history_selfReplied
  have hfault : selfReplied.fault? oneReply (.apply (.vote "carol" ⟨"bob", "answer"⟩ 1)) =
      some (.depthExceeded 1) := by decide +kernel
  obtain ⟨-, start, between, -, hstart, hsame, -, hrejected, -⟩ :=
    Course.depth_rejection hF.course (Node.apply_of_fault? hfault)
  have hbetween : between = selfReplied.catalog := hsame rfl
  rw [hbetween] at hrejected
  have hbefore : (selfReplied.catalog.entriesOfContent 2).map (·.netVotes) = [0, 0] := by
    decide +kernel
  have hafter : ((selfReplied.next oneReply (.apply (.vote "carol" ⟨"bob", "answer"⟩
      1))).catalog.entriesOfContent 2).map (·.netVotes) = [1, 1] := by decide +kernel
  exact ⟨F, _, start, hF.course, Node.apply_of_fault? hfault, hstart, hrejected, hbefore, hafter⟩

end TagCatalog
