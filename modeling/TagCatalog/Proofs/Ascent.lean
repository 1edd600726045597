import TagCatalog.Proofs.DepthLimit
import TagCatalog.Proofs.Footprint

/-! How far up a refresh gets, whatever the parents of a ledger look like. It takes the contents of a
chain one after the other and stops at a root, at a parent that is not there or at the limit. -/

namespace TagCatalog

namespace ContentSource

variable {s : Settings} {source : ContentSource} {c p : Content} {path path' : List Content}

/-- The chain from content up to a root. -/
inductive Rooted (source : ContentSource) : Content → List Content → Prop
  | root {c : Content} (h : c.parent? = none) : Rooted source c [c]
  | reply {c p : Content} {path : List Content} (h : source.RepliesTo c p)
    (hp : Rooted source p path) : Rooted source c (c :: path)

theorem Rooted.unique (h : source.Rooted c path) (h' : source.Rooted c path') : path = path' := by
  induction h generalizing path' with
  | root h =>
    cases h' with
    | root _ => rfl
    | reply hreply _ => simp [RepliesTo, parent?, h] at hreply
  | reply h _ ih =>
    cases h' with
    | root hroot => simp [RepliesTo, parent?, hroot] at h
    | reply hreply hp' =>
      obtain rfl := Option.some.inj (h.symm.trans hreply)
      rw [ih hp']

theorem Rooted.suffix (h : source.Rooted c path) (hp : p ∈ path) :
    ∃ rest, source.Rooted p rest ∧ rest <:+ path := by
  induction h with
  | root h =>
    obtain rfl := List.mem_singleton.mp hp
    exact ⟨_, .root h, List.suffix_rfl⟩
  | reply h hup ih =>
    rcases List.mem_cons.mp hp with rfl | hmem
    · exact ⟨_, .reply h hup, List.suffix_rfl⟩
    · obtain ⟨rest, hrest, hsuffix⟩ := ih hmem
      exact ⟨rest, hrest, hsuffix.trans (List.suffix_cons _ _)⟩

theorem Rooted.nodup (h : source.Rooted c path) : path.Nodup := by
  induction h with
  | root h => exact List.nodup_singleton _
  | reply h hup ih =>
    refine List.nodup_cons.mpr ⟨fun hmem => ?_, ih⟩
    -- From there the chain would be the whole of it again, and shorter.
    obtain ⟨rest, hrest, hsuffix⟩ := hup.suffix hmem
    have hsame := hrest.unique (.reply h hup)
    have hlength := hsuffix.length_le
    rw [hsame, List.length_cons] at hlength
    omega

/-- Why a refresh goes no further than its last content, that many replies up: this is a root, its
parent is not there, or the limit is reached. -/
inductive Ends (s : Settings) (source : ContentSource) (taken limit : Nat) (last : Content) :
    Option Fault → Prop
  | root (h : last.parent? = none) : Ends s source taken limit last none
  | missing (a : Address) (h : last.parent? = some a) (hmissing : source.at? a = none) :
    Ends s source taken limit last (some (.contentNotFound a))
  | limit (p : Content) (h : source.RepliesTo last p) (htaken : taken = limit) :
    Ends s source taken limit last (some (.depthExceeded s.maxReplyDepth))

/-- A path goes from content to what it replies to, at most `limit` replies up, and ends with this
fault or with none. -/
structure Climbs (s : Settings) (source : ContentSource) (limit : Nat) (start : Content)
    (path : List Content) (stop : Option Fault) : Prop where
  head : path.head? = some start
  chain : path.IsChain source.RepliesTo
  length_le : path.length ≤ limit + 1
  ends : ∃ last, path.getLast? = some last ∧ source.Ends s (path.length - 1) limit last stop

theorem Climbs.single {limit : Nat} {stop : Option Fault} (h : source.Ends s 0 limit c stop) :
    source.Climbs s limit c [c] stop where
  head := rfl
  chain := .singleton c
  length_le := by simp
  ends := ⟨c, rfl, h⟩

theorem Climbs.cons {limit : Nat} {stop : Option Fault} (h : source.RepliesTo c p)
    (hp : source.Climbs s limit p path stop) : source.Climbs s (limit + 1) c (c :: path) stop := by
  obtain ⟨last, hlast, hends⟩ := hp.ends
  obtain ⟨rest, rfl⟩ := List.head?_eq_some_iff.mp hp.head
  have hlength := hp.length_le
  refine ⟨rfl, ?_, by simpa using hlength, last, ?_, ?_⟩
  · exact List.isChain_cons_cons.mpr ⟨h, hp.chain⟩
  · rw [List.getLast?_cons_cons]
    exact hlast
  · cases hends with
    | root hroot => exact .root hroot
    | missing a ha hmissing => exact .missing a ha hmissing
    | limit q hq htaken =>
      refine .limit q hq ?_
      simp only [List.length_cons] at htaken ⊢
      omega

theorem climbs_ancestry (s : Settings) (source : ContentSource) (hops : Nat) (c : Content) :
    source.Climbs s hops c (source.ancestry hops c) (source.stop? s hops c) := by
  induction hops generalizing c with
  | zero =>
    refine .single ?_
    cases hp : c.parent? with
    | none =>
      rw [stop?, hp]
      exact .root hp
    | some a =>
      rw [stop?, hp, Option.map_some]
      cases ha : source.at? a with
      | none => exact .missing a hp ha
      | some p => exact .limit p (by simp [RepliesTo, parent?, hp, ha]) rfl
  | succ hops ih =>
    unfold ancestry stop?
    cases hparent : source.parent? c with
    | some p => exact (ih p).cons hparent
    | none =>
      refine .single ?_
      cases hp : c.parent? with
      | none => exact .root hp
      | some a => exact .missing a hp (by simpa [parent?, hp] using hparent)

theorem rooted_ancestry {hops : Nat} (h : source.stop? s hops c = none) :
    source.Rooted c (source.ancestry hops c) := by
  induction hops generalizing c with
  | zero => exact .root (by simpa [stop?] using h)
  | succ hops ih =>
    unfold stop? at h
    unfold ancestry
    cases hparent : source.parent? c with
    | some p =>
      rw [hparent] at h
      exact .reply hparent (ih h)
    | none =>
      rw [hparent] at h
      exact .root (by simpa using h)

end ContentSource

namespace Ledger

variable {l : Ledger} {c p : Content}

theorem Coherent.stored_of_repliesTo (hl : l.Coherent) (hc : l.byId? c.id = some c)
    (h : Relation.ReflTransGen l.source.RepliesTo c p) : l.byId? p.id = some p := by
  cases h with
  | refl => exact hc
  | tail _ hreply =>
    obtain ⟨a, -, ha⟩ := Option.bind_eq_some_iff.mp hreply
    exact (hl.at?_eq_some.mp ha).1

end Ledger

namespace Entry

variable {s : Settings}

/-- The entry tells what its content tells now, in the place that it had. -/
structure UpToDate (s : Settings) (content : Content) (e old : Entry) : Prop where
  updated : e.updated = content.lastUpdate
  active : e.active = content.active
  cashout : e.cashout = content.cashoutTime
  netVotes : e.netVotes = content.netVotes
  children : e.children = content.children
  netRshares : e.netRshares = content.netRshares
  childrenRshares2 : e.childrenRshares2 = content.childrenRshares2
  scores : (e.hot, e.trending) = s.scores content.netRshares content.created
  id : e.id = old.id
  topic : e.topic = old.topic
  content_eq : e.content = old.content
  parent : e.parent = old.parent
  author : e.author = old.author
  created : e.created = old.created

theorem upToDate_refreshed (s : Settings) (content : Content) (old : Entry) :
    (old.refreshed s content).UpToDate s content old := by
  constructor <;> rfl

/-- If ids tell contents apart, an entry is refreshed by its own content, and once is enough. -/
theorem refreshedBy_eq {l : Ledger} (hl : l.Coherent) {path : List Content}
    (hpath : ∀ p ∈ path, l.byId? p.id = some p) (e : Entry) :
    e.refreshedBy s path = match (l.byId? e.content).filter (· ∈ path) with
      | some content => e.refreshed s content
      | none => e := by
  induction path generalizing e with
  | nil => cases l.byId? e.content <;> simp [refreshedBy]
  | cons p path ih =>
    have hp := hpath p (by simp)
    have hrest := ih fun q hq => hpath q (by simp [hq])
    rw [refreshedBy, hrest]
    by_cases hid : e.content = p.id
    · have hcontent : (e.refreshed s p).content = e.content := rfl
      rw [if_pos hid, hcontent, hid, hp]
      by_cases hmem : p ∈ path
      · simp [Option.filter, hmem, refreshed]
      · simp [Option.filter, hmem]
    · rw [if_neg hid]
      cases hc : l.byId? e.content with
      | none => rfl
      | some content =>
        have hne : content ≠ p := by
          rintro rfl
          exact hid (hl.id_eq _ _ hc).symm
        simp [Option.filter, hne]

end Entry

namespace Catalog

/-- The entries of each content on a path are up to date, and the others are as they were. -/
structure BroughtUp (s : Settings) (path : List Content) (c d : Catalog) : Prop where
  visited : ∀ content ∈ path, ∀ id old, c.table.get? id = some old → old.content = content.id →
    ∃ e, d.table.get? id = some e ∧ e.UpToDate s content old
  others : ∀ id old, c.table.get? id = some old → (∀ content ∈ path, old.content ≠ content.id) →
    d.table.get? id = some old
  none_new : ∀ id, c.table.get? id = none → d.table.get? id = none

theorem Refreshed.broughtUp {s : Settings} {l : Ledger} {path : List Content} {c d : Catalog}
    (h : Refreshed s path c d) (hl : l.Coherent) (hpath : ∀ p ∈ path, l.byId? p.id = some p) :
    BroughtUp s path c d := by
  refine ⟨?_, ?_, ?_⟩
  · intro content hmem id old hold hcontent
    refine ⟨old.refreshed s content, ?_, old.upToDate_refreshed s content⟩
    rw [h.2, hold, Option.map_some, Entry.refreshedBy_eq hl hpath, hcontent, hpath content hmem,
      Option.filter_some_pos (by simpa using hmem)]
  · intro id old hold hne
    rw [h.2, hold, Option.map_some, Entry.refreshedBy_of_ne hne]
  · intro id hnone
    rw [h.2, hnone, Option.map_none]

theorem refresh_eq {s : Settings} {source : ContentSource} {a : Address} {start : Content}
    (h : source.at? a = some start) : refresh s source a = refreshUp s source start := by
  rw [refresh, ContentSource.require, h]
  rfl

end Catalog

variable {s : Settings} {n : Node} {F : Filed}

/-- A refresh of stored content that overflows nothing comes to an end, whatever chain stands above the
content. It refuses content that is too deep; otherwise it refreshes a path in order, and the end of the
path tells whether it returns. -/
theorem Course.refresh_classified (h : Course n F) {a : Address} {start : Content}
    (hstart : n.ledger.at? a = some start)
    (hno : Update.NoOverflow (Catalog.refresh s n.ledger.source a) n.catalog) :
    (s.maxReplyDepth < start.depth → Catalog.refresh s n.ledger.source a n.catalog =
      .error (.fault (.depthExceeded s.maxReplyDepth)) n.catalog) ∧
    (start.depth ≤ s.maxReplyDepth → ∃ path stop counts d,
      n.ledger.source.Climbs s s.maxReplyDepth start path stop ∧
      (∀ content ∈ path, n.ledger.at? content.address = some content) ∧
      path.mapM (Catalog.refreshContent s) n.catalog = .ok counts d ∧
      Catalog.BroughtUp s path n.catalog d ∧
      Catalog.refresh s n.ledger.source a n.catalog = (match stop with
        | none => .ok { refreshed := counts.sum, visited := path.map (·.id) } d
        | some f => .error (.fault f) d) ∧
      (stop = none → (path.map (·.id)).Nodup)) := by
  have hh := h.holds
  constructor
  · intro hlt
    rw [Catalog.refresh_eq hstart, Catalog.refreshUp, if_pos hlt]
    rfl
  intro hle
  let path := n.ledger.source.ancestry s.maxReplyDepth start
  have hclimbs := n.ledger.source.climbs_ancestry s s.maxReplyDepth start
  have hstored : ∀ p ∈ path, n.ledger.byId? p.id = some p := fun p hp =>
    hh.ledger.stored_of_repliesTo (hh.ledger.at?_eq_some.mp hstart).1
      (ContentSource.repliesTo_of_mem_ancestry hp)
  rw [Catalog.refresh_eq hstart, Catalog.refreshUp, if_neg (Nat.not_lt.mpr hle),
    Catalog.climb_eq] at hno ⊢
  rw [Update.noOverflow_bind] at hno
  -- The path itself cannot fail: what a refresh reports comes after all that it writes.
  obtain ⟨counts, d, hrun, -, hrefreshed, -⟩ :=
    (Catalog.yields_refreshPath hh.catalog path).exists_ok hno.1
  refine ⟨path, _, counts, d, hclimbs, ?_, hrun, hrefreshed.broughtUp hh.ledger hstored, ?_, ?_⟩
  · exact fun p hp => hh.ledger.at?_eq_some.mpr ⟨hstored p hp, rfl⟩
  · change (path.mapM (Catalog.refreshContent s) >>= _) n.catalog = _
    simp only [bind, EStateM.bind, hrun]
    cases n.ledger.source.stop? s s.maxReplyDepth start with
    | none => rfl
    | some f => rfl
  · intro hstop
    refine List.Nodup.map_on ?_ (ContentSource.rooted_ancestry hstop).nodup
    intro p hp q hq hid
    have hboth := (hstored p hp).symm.trans (hid ▸ hstored q hq)
    exact Option.some.inj hboth

/-- A post and a reply to it are filed, and then the reply is voted for. -/
def answerVoted : Node := Node.nexts {}
  [.upsert (rootPost "news"), .upsert (artReply "bob" "answer" ⟨"alice", "morning"⟩),
    .apply (.comment ⟨"alice", "morning"⟩ "" "news"),
    .apply (.comment ⟨"bob", "answer"⟩ "alice" "morning"),
    .applyVote ⟨"bob", "answer"⟩ 5 1] {}

theorem exists_history_answerVoted : ∃ F, History {} answerVoted F :=
  History.exists_nexts ⟨_, .start⟩ (by decide +kernel)

def Catalog.afterCall (m : Update Catalog Report) (c : Catalog) : Catalog :=
  (Update.after? m c).getD .empty

/-- The vote goes up from the reply to the post, and only the entries of the reply show it. -/
theorem Course.refresh_classified_answerVoted :
    let m := Catalog.refresh {} answerVoted.ledger.source ⟨"bob", "answer"⟩
    ∃ F start path counts d, Course answerVoted F ∧
      answerVoted.ledger.at? ⟨"bob", "answer"⟩ = some start ∧
      Update.NoOverflow m answerVoted.catalog ∧
      answerVoted.ledger.source.Climbs {} 255 start path none ∧
      path.mapM (Catalog.refreshContent {}) answerVoted.catalog = .ok counts d ∧
      Catalog.BroughtUp {} path answerVoted.catalog d ∧
      m answerVoted.catalog = .ok { refreshed := counts.sum, visited := path.map (·.id) } d ∧
      path.map (·.id) = [2, 1] ∧ (path.map (·.id)).Nodup ∧
      (answerVoted.catalog.entriesOfContent 2).map (·.netVotes) = [0, 0] ∧
      (d.entriesOfContent 2).map (·.netVotes) = [1, 1] := by
  intro m
  obtain ⟨F, hF⟩ := exists_history_answerVoted
  have hdepth : (answerVoted.ledger.at? ⟨"bob", "answer"⟩).map (·.depth) = some 1 := by
    decide +kernel
  obtain ⟨start, hstart, hone⟩ := Option.map_eq_some_iff.mp hdepth
  have hreturns : Update.returns m answerVoted.catalog = true := by decide +kernel
  have hno : Update.NoOverflow m answerVoted.catalog := Update.ne_overflow_of_returns hreturns
  have hle : start.depth ≤ ({} : Settings).maxReplyDepth := by rw [hone]; decide
  obtain ⟨-, hclassified⟩ := Course.refresh_classified hF.course hstart hno
  obtain ⟨path, stop, counts, d, hclimbs, -, hpasses, hbrought, hrun, hnodup⟩ := hclassified hle
  have hafter : d = Catalog.afterCall m answerVoted.catalog := by
    obtain ⟨r, hr⟩ := Update.exists_ok_of_returns hreturns .empty
    cases stop with
    | none => exact (EStateM.Result.ok.inj (hrun.symm.trans hr)).2
    | some f => cases hrun.symm.trans hr
  have hvisited : (Update.answer m answerVoted.catalog).toOption.map (·.visited) = some [2, 1] := by
    decide +kernel
  have hvotes : ((Catalog.afterCall m answerVoted.catalog).entriesOfContent 2).map (·.netVotes) =
      [1, 1] := by decide +kernel
  cases stop with
  | some f => simp [m, Update.answer, hrun, Except.toOption] at hvisited
  | none =>
    have hpath : path.map (·.id) = [2, 1] := by
      simpa [m, Update.answer, hrun, Except.toOption] using hvisited
    exact ⟨F, start, path, counts, d, hF.course, hstart, hno, hclimbs, hpasses, hbrought, hrun, hpath,
      hnodup rfl, by decide +kernel, hafter ▸ hvotes⟩

end TagCatalog
