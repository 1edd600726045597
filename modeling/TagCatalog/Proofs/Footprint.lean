import TagCatalog.Proofs.Deletion
import TagCatalog.Proofs.RowFrames

/-! How far an operation reaches. Each entry it may touch is of content that it names, of content
above that or of content that is gone, and rows change with these entries only. -/

namespace TagCatalog

namespace ContentSource

variable {s : Settings} {source : ContentSource} {c p : Content}

def RepliesTo (source : ContentSource) (c p : Content) : Prop := source.parent? c = some p

theorem repliesTo_of_mem_ancestry {hops : Nat} (h : p ∈ source.ancestry hops c) :
    Relation.ReflTransGen source.RepliesTo c p := by
  induction hops generalizing c with
  | zero =>
    obtain rfl := List.mem_singleton.mp h
    exact .refl
  | succ hops ih =>
    unfold ancestry at h
    split at h
    · rename_i parent hparent
      rcases List.mem_cons.mp h with rfl | hmem
      · exact .refl
      · exact .head hparent (ih hmem)
    · obtain rfl := List.mem_singleton.mp h
      exact .refl

theorem repliesTo_of_mem_refreshPath (h : p ∈ source.refreshPath s c) :
    Relation.ReflTransGen source.RepliesTo c p := by
  unfold refreshPath at h
  split at h
  · cases h
  · exact repliesTo_of_mem_ancestry h

theorem repliesTo_of_mem_pathAt {a : Address} (h : p ∈ source.pathAt s a) :
    ∃ c, source.at? a = some c ∧ Relation.ReflTransGen source.RepliesTo c p := by
  unfold pathAt at h
  cases hc : source.at? a with
  | none => simp [hc] at h
  | some c =>
    rw [hc] at h
    exact ⟨c, rfl, repliesTo_of_mem_refreshPath h⟩

theorem repliesTo_of_mem_pathAbove (h : p ∈ source.pathAbove s c) :
    Relation.ReflTransGen source.RepliesTo c p := by
  unfold pathAbove at h
  cases hparent : source.parent? c with
  | none => simp [hparent] at h
  | some parent =>
    rw [hparent] at h
    exact .head hparent (repliesTo_of_mem_refreshPath h)

end ContentSource

theorem Entry.refreshedBy_of_ne {s : Settings} {path : List Content} {e : Entry}
    (h : ∀ p ∈ path, e.content ≠ p.id) : e.refreshedBy s path = e := by
  induction path with
  | nil => rfl
  | cons p path ih =>
    rw [Entry.refreshedBy, if_neg (h p (by simp))]
    exact ih fun q hq => h q (by simp [hq])

namespace Operation

/-- The contents whose entries an operation may touch: what it names, with what that replies to if
it refreshes, or what its author has lost. -/
def Reaches (F : Filed) (l : Ledger) (id : Nat) : Operation → Prop
  | .comment a _ _ => ∃ c, l.at? a = some c ∧ c.id = id
  | .vote _ a _ | .reward a _ | .payoutUpdate a =>
    ∃ c p, l.at? a = some c ∧ Relation.ReflTransGen l.source.RepliesTo c p ∧ p.id = id
  | .delete a => F.Lost l a.author id
  | .transfer .. | .other => False

/-- The author whose rows an operation may change. -/
def writer? (l : Ledger) : Operation → Option String
  | .comment a _ _ | .reward a _ => (l.at? a).map (·.author)
  | .payoutUpdate a => (l.at? a).bind fun c => if c.isOpen then none else some c.author
  | .delete a => some a.author
  | .vote .. | .transfer .. | .other => none

/-- The operation neither files nor withdraws. -/
def keepsEntries (l : Ledger) : Operation → Bool
  | .comment .. | .delete _ => false
  | .payoutUpdate a => (l.at? a).all (·.isOpen)
  | .vote .. | .reward .. | .transfer .. | .other => true

/-- What an operation may make of what is under an entry id. -/
inductive Turns (F : Filed) (l : Ledger) (op : Operation) : Option Entry → Option Entry → Prop
  | same (o : Option Entry) : Turns F l op o o
  | refreshed {e e' : Entry} (hreach : op.Reaches F l e.content) (hfiling : e'.filing = e.filing)
    (hauthor : e'.author = e.author) : Turns F l op (some e) (some e')
  | withdrawn {e : Entry} (hreach : op.Reaches F l e.content) (hwriter : op.writer? l = some e.author)
    (hkeeps : op.keepsEntries l = false) : Turns F l op (some e) none
  | filed {e : Entry} (hreach : op.Reaches F l e.content) (hwriter : op.writer? l = some e.author)
    (hkeeps : op.keepsEntries l = false) : Turns F l op none (some e)

namespace Turns

variable {F : Filed} {l : Ledger} {op : Operation} {o o' : Option Entry} {e : Entry}

theorem eq_some_iff (h : op.Turns F l o o')
    (hnone : (o = some e ∨ o' = some e) → ¬ op.Reaches F l e.content) :
    o' = some e ↔ o = some e := by
  cases h with
  | same => rfl
  | refreshed hreach hfiling _ =>
    have hcontent : Entry.content _ = Entry.content _ := congrArg Filing.content hfiling
    refine iff_of_false (fun hh => ?_) fun hh => ?_
    · obtain rfl := Option.some.inj hh
      exact hnone (.inr rfl) (hcontent ▸ hreach)
    · obtain rfl := Option.some.inj hh
      exact hnone (.inl rfl) hreach
  | withdrawn hreach _ _ =>
    refine iff_of_false nofun fun hh => ?_
    obtain rfl := Option.some.inj hh
    exact hnone (.inl rfl) hreach
  | filed hreach _ _ =>
    refine iff_of_false (fun hh => ?_) nofun
    obtain rfl := Option.some.inj hh
    exact hnone (.inr rfl) hreach

theorem any_authorship (h : op.Turns F l o o') {author : String}
    (hwriter : op.writer? l ≠ some author) (topic : Topic) :
    o'.any (·.authorship = ⟨author, topic⟩) = o.any (·.authorship = ⟨author, topic⟩) := by
  have hother {e : Entry} (he : op.writer? l = some e.author) : e.authorship ≠ ⟨author, topic⟩ := by
    intro hh
    have hauthor : e.author = author := congrArg Authorship.author hh
    exact hwriter (hauthor ▸ he)
  cases h with
  | same => rfl
  | refreshed _ hfiling hauthor =>
    have hsame : Entry.authorship _ = Entry.authorship _ :=
      congrArg₂ Authorship.mk hauthor (congrArg Filing.topic hfiling)
    simp only [Option.any_some, hsame]
  | withdrawn _ he _ => simp [hother he]
  | filed _ he _ => simp [hother he]

theorem map_authorship (h : op.Turns F l o o') (hkeeps : op.keepsEntries l = true) :
    o'.map Entry.authorship = o.map Entry.authorship := by
  cases h with
  | same => rfl
  | refreshed _ hfiling hauthor =>
    exact congrArg some (congrArg₂ Authorship.mk hauthor (congrArg Filing.topic hfiling))
  | withdrawn _ _ hnot => simp [hnot] at hkeeps
  | filed _ _ hnot => simp [hnot] at hkeeps

variable {s : Settings} {path : List Content} {c d : Catalog}

theorem refreshedBy (hpath : ∀ p ∈ path, op.Reaches F l p.id) (e : Entry) :
    op.Turns F l (some e) (some (e.refreshedBy s path)) := by
  by_cases hon : ∃ p ∈ path, e.content = p.id
  · obtain ⟨p, hp, hcontent⟩ := hon
    obtain ⟨hplace, hauthor, htopic⟩ := Catalog.refreshedBy_place (s := s) path e
    refine .refreshed (hcontent ▸ hpath p hp) ?_ hauthor
    rw [Entry.filing, Entry.filing, hplace, htopic]
  · rw [Entry.refreshedBy_of_ne fun p hp hcontent => hon ⟨p, hp, hcontent⟩]
    exact .same _

theorem of_refreshed (h : Catalog.Refreshed s path c d) (hpath : ∀ p ∈ path, op.Reaches F l p.id)
    (id : Nat) : op.Turns F l (c.table.get? id) (d.table.get? id) := by
  rw [h.2]
  cases c.table.get? id with
  | none => exact .same _
  | some e => exact refreshedBy hpath e

theorem of_thinned {keep : Entry → Bool} (h : Catalog.Thinned s keep path c d)
    (hpath : ∀ p ∈ path, op.Reaches F l p.id) (hkeeps : op.keepsEntries l = false) (id : Nat)
    (hgone : ∀ e, c.table.get? id = some e → keep e = false →
      op.Reaches F l e.content ∧ op.writer? l = some e.author) :
    op.Turns F l (c.table.get? id) (d.table.get? id) := by
  rw [h.2]
  cases he : c.table.get? id with
  | none => exact .same _
  | some e =>
    cases hkeep : keep e with
    | true =>
      rw [Option.filter_some_pos hkeep]
      exact refreshedBy hpath e
    | false =>
      obtain ⟨hreach, hwriter⟩ := hgone e he hkeep
      simp only [Option.filter, hkeep]
      exact .withdrawn hreach hwriter hkeeps

end Turns

end Operation

variable {s : Settings} {n n' : Node} {F : Filed} {op : Operation} {returned : Bool}

theorem Filed.Holds.turns_of_reclassified (h : F.Holds n) {a : Address} {content : Content}
    (hat : n.ledger.at? a = some content) {parentAuthor parentPermlink : String}
    {parent : Option Nat} {topics : List Topic} {d : Catalog}
    (hd : Catalog.Reclassified s content parent topics n.catalog d) (id : Nat) :
    (Operation.comment a parentAuthor parentPermlink).Turns F n.ledger
      (n.catalog.table.get? id) (d.table.get? id) := by
  have hreach {e : Entry} (hcontent : e.content = content.id) :
      (Operation.comment a parentAuthor parentPermlink).Reaches F n.ledger e.content :=
    ⟨content, hat, hcontent.symm⟩
  have hwriter {e : Entry} (hauthor : e.author = content.author) :
      (Operation.comment a parentAuthor parentPermlink).writer? n.ledger = some e.author := by
    simp [Operation.writer?, hat, hauthor]
  cases hid : n.catalog.table.get? id with
  | none =>
    cases hnew : d.table.get? id with
    | none => exact .same _
    | some e =>
      obtain ⟨-, hfiled⟩ := hd.new id e hid hnew
      have hcontent : e.content = content.id := congrArg Entry.content hfiled
      have hauthor : e.author = content.author := congrArg Entry.author hfiled
      exact .filed (hreach hcontent) (hwriter hauthor) rfl
  | some e =>
    rw [hd.old id e hid]
    split
    · exact .same _
    · rename_i hcontent
      have hcontent : e.content = content.id := by simpa using hcontent
      split
      · exact .refreshed (hreach hcontent) rfl rfl
      · have hauthor := h.owner_eq hid (hcontent ▸ (h.ledger.at?_eq_some.mp hat).1)
        exact .withdrawn (hreach hcontent) (hwriter hauthor) rfl

theorem Filed.Holds.turns (h : F.Holds n) {d : Catalog}
    (he : Catalog.Effect s n.ledger.source returned op n.catalog d) (id : Nat) :
    op.Turns F n.ledger (n.catalog.table.get? id) (d.table.get? id) := by
  have hsame (hd : d = n.catalog) :
      op.Turns F n.ledger (n.catalog.table.get? id) (d.table.get? id) := by
    rw [hd]
    exact .same _
  have hpath {a : Address} (p : Content) (hp : p ∈ n.ledger.source.pathAt s a) :
      ∃ c p', n.ledger.at? a = some c ∧ Relation.ReflTransGen n.ledger.source.RepliesTo c p' ∧
        p'.id = p.id := by
    obtain ⟨c, hat, hup⟩ := ContentSource.repliesTo_of_mem_pathAt hp
    exact ⟨c, p, hat, hup, rfl⟩
  cases op with
  | comment a parentAuthor parentPermlink =>
    simp only [Catalog.Effect, Ledger.source] at he
    cases hat : n.ledger.at? a with
    | none =>
      rw [hat] at he
      exact hsame he
    | some content =>
      simp only [hat] at he
      split at he
      · exact h.turns_of_reclassified hat he id
      · exact hsame he
  | vote voter a weight =>
    refine .of_refreshed he ?_ id
    exact hpath
  | reward a payout =>
    refine .of_refreshed he ?_ id
    exact hpath
  | payoutUpdate a =>
    simp only [Catalog.Effect, Ledger.source] at he
    cases hat : n.ledger.at? a with
    | none =>
      rw [hat] at he
      exact hsame he
    | some content =>
      simp only [hat] at he
      split at he
      · refine .of_refreshed he ?_ id
        exact hpath
      · rename_i hclosed
        refine .of_thinned he ?_ (by simp [Operation.keepsEntries, hat, hclosed]) id ?_
        · intro p hp
          exact ⟨content, p, hat, ContentSource.repliesTo_of_mem_pathAbove hp, rfl⟩
        · intro e hid hkeep
          have hcontent : e.content = content.id := by simpa using hkeep
          have hauthor := h.owner_eq hid (hcontent ▸ (h.ledger.at?_eq_some.mp hat).1)
          refine ⟨⟨content, content, hat, .refl, hcontent.symm⟩, ?_⟩
          simp [Operation.writer?, hat, hclosed, hauthor]
  | delete a =>
    refine .of_thinned he (by simp) rfl id fun e hid hkeep => ?_
    have horphan : Catalog.isOrphan n.ledger.source a.author e = true := by simpa using hkeep
    have hlost := (h.isOrphan_iff hid).mp horphan
    have howner := h.names.owner e.content e.author e.topic ⟨id, e, hid, rfl, rfl, rfl⟩
    exact ⟨hlost, hlost.2.symm.trans howner⟩
  | transfer sender recipient amount memo => exact hsame he
  | other => exact hsame he

/-- What an operation leaves as it is. -/
structure Operation.Frame (F : Filed) (l : Ledger) (op : Operation) (c d : Catalog) : Prop where
  entries : ∀ id e, ¬ op.Reaches F l e.content →
    (d.table.get? id = some e ↔ c.table.get? id = some e)
  topics : ∀ topic, d.totals.topic? topic ≠ c.totals.topic? topic →
    ∃ id e, (c.table.get? id = some e ∨ d.table.get? id = some e) ∧ op.Reaches F l e.content ∧
      e.topic = topic
  languages : ∀ name, ¬ (name ∈ d.totals.languages ↔ name ∈ c.totals.languages) →
    ∃ id e, (c.table.get? id = some e ∨ d.table.get? id = some e) ∧ op.Reaches F l e.content ∧
      e.topic = .language name
  authors : ∀ author topic, d.totals.author? author topic ≠ c.totals.author? author topic →
    op.writer? l = some author
  standing : op.keepsEntries l = true → c.Standing d

theorem Operation.pays_eq_zero {l : Ledger} {c : Catalog} {account : Account}
    (h : ∀ a payout content, op = .reward a payout → l.at? a = some content →
      account ∉ c.accountsOf content) : op.pays l c returned account = 0 := by
  cases op with
  | reward a payout =>
    simp only [pays]
    cases hat : l.at? a with
    | none => rfl
    | some content => simp [h a payout content rfl hat]
  | _ => rfl

theorem Catalog.Paid.balance_eq {l : Ledger} {c d : Catalog} {account : Account}
    (h : Paid l returned op c d) (hpays : op.pays l c returned account = 0) (x y : Nat)
    (hx : c.balance? account = some x) (hy : d.balance? account = some y) : y = x := by
  rcases h account with hsame | hgone | ⟨hnone, -⟩
  · rw [hx, hy, hpays] at hsame
    exact Option.some.inj hsame
  · cases hgone.symm.trans hy
  · cases hnone.symm.trans hx

theorem Operation.Frame.of_turns {l : Ledger} {c d : Catalog} (hc : c.Sound) (hd : d.Sound)
    (hturns : ∀ id, op.Turns F l (c.table.get? id) (d.table.get? id))
    (hpaid : Catalog.Paid l returned op c d) : op.Frame F l c d where
  entries id e he := (hturns id).eq_some_iff fun _ => he
  topics topic hne := by
    by_contra hnone
    have hnone (id : Nat) (e : Entry) (hid : c.table.get? id = some e ∨ d.table.get? id = some e)
        (he : e.topic = topic) : ¬ op.Reaches F l e.content :=
      fun hreach => hnone ⟨id, e, hid, hreach, he⟩
    refine hne (Catalog.topic?_eq hc hd ?_ (hpaid.balance_eq (Operation.pays_eq_zero ?_)))
    · exact fun id e he => (hturns id).eq_some_iff fun hid => hnone id e hid he
    · rintro a payout content rfl hat haccount
      obtain ⟨topic', htopic', hacc⟩ := Catalog.mem_accountsOf.mp haccount
      obtain ⟨e, he, rfl⟩ := List.mem_map.mp htopic'
      obtain ⟨⟨id, hid⟩, hcontent⟩ := (Catalog.mem_entriesOfContent hc).mp he
      have htopic : e.topic = topic := by simpa [eq_comm] using hacc
      exact hnone id e (.inl hid) htopic ⟨content, content, hat, .refl, hcontent.symm⟩
  languages name hne := by
    by_contra hnone
    refine hne ?_
    rw [Catalog.mem_languages_iff hd, Catalog.mem_languages_iff hc]
    refine exists_congr fun id => exists_congr fun e => and_congr_left fun he => ?_
    exact (hturns id).eq_some_iff fun hid hreach => hnone ⟨id, e, hid, hreach, he⟩
  authors author topic hne := by
    by_contra hwriter
    refine hne (Catalog.author?_eq hc hd ?_ (hpaid.balance_eq (Operation.pays_eq_zero ?_)))
    · exact fun id => (hturns id).any_authorship hwriter topic
    · rintro a payout content rfl hat haccount
      obtain ⟨topic', -, hacc⟩ := Catalog.mem_accountsOf.mp haccount
      have hauthor : author = content.author := by simp_all
      exact hwriter (by simp [Operation.writer?, hat, hauthor])
  standing hkeeps := .of_authorships hc hd fun id => (hturns id).map_authorship hkeeps

theorem Filed.Holds.applied (h : F.Holds n) (hm : Node.Moves s (.apply op) n returned n') :
    n'.catalog.Sound ∧ Catalog.Effect s n.ledger.source returned op n.catalog n'.catalog ∧
      Catalog.Paid n.ledger returned op n.catalog n'.catalog := by
  refine hm.of_yields (P := fun returned n' => n'.catalog.Sound ∧
    Catalog.Effect s n.ledger.source returned op n.catalog n'.catalog ∧
      Catalog.Paid n.ledger returned op n.catalog n'.catalog) ?_
  simp only [Node.run, Node.onCatalog, Update.yields_bind, Update.yields_pure, Update.yields_get,
    Update.yields_within]
  have howner : ∀ id e content, n.catalog.table.get? id = some e →
      n.ledger.byId? e.content = some content → e.author = content.author :=
    fun _ _ _ => h.owner_eq
  refine ((Catalog.yields_apply h.catalog op).and
    (Catalog.yields_apply_paid h.catalog howner h.ledger op)).mono ?_ ?_
  · exact fun _ d hd => ⟨hd.1.1, hd.1.2, hd.2⟩
  · exact fun _ d hd => ⟨hd.1.2.1, hd.1.2.2, hd.2⟩

/-- After any calls an operation, whether it returns or fails, stays with the contents it names, with
those above them and with those its author has lost. -/
theorem Course.footprint (h : Course n F) (hm : Node.Moves s (.apply op) n returned n') :
    op.Frame F n.ledger n.catalog n'.catalog := by
  obtain ⟨hsound, heffect, hpaid⟩ := h.holds.applied hm
  exact .of_turns h.holds.catalog hsound (fun id => h.holds.turns heffect id) hpaid

/-- A reward changes the rows of its author, and makes or drops none. -/
theorem Course.footprint_rootRewarded :
    ∃ F, Course rootFiled F ∧
      Node.Moves {} (.apply (.reward ⟨"alice", "morning"⟩ 5)) rootFiled true rootRewarded ∧
      (Operation.reward ⟨"alice", "morning"⟩ 5).Frame F rootFiled.ledger rootFiled.catalog
        rootRewarded.catalog ∧
      (Operation.reward ⟨"alice", "morning"⟩ 5).writer? rootFiled.ledger = some "alice" ∧
      rootRewarded.catalog.totals.author? "alice" (.tag "news") ≠
        rootFiled.catalog.totals.author? "alice" (.tag "news") := by
  obtain ⟨F, hF⟩ := exists_history_rootFiled
  have hrewarded : Node.Moves {} _ rootFiled true rootRewarded := Node.moves_next (by decide +kernel)
  have hframe := Course.footprint hF.course hrewarded
  have hwriter : (Operation.reward ⟨"alice", "morning"⟩ 5).writer? rootFiled.ledger =
      some "alice" := by decide +kernel
  have hrow : rootRewarded.catalog.totals.author? "alice" (.tag "news") ≠
      rootFiled.catalog.totals.author? "alice" (.tag "news") := by decide +kernel
  exact ⟨F, hF.course, hrewarded, hframe, hwriter, hrow⟩

end TagCatalog
