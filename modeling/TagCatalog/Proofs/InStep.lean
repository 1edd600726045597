import TagCatalog.Proofs.History

/-! Histories in which the catalog is told of every write right away. Content is then filed by what
it says now, and by the category it had when it was last written itself. -/

namespace TagCatalog

/-- Each write is followed by its operation, and every call returns. Of each id it is noted which
category its content had when it was last written. -/
inductive Told (s : Settings) : Node → (Nat → String) → Prop
  | start : Told s {} fun _ => ""
  | write {n n₁ n' : Node} {category : Nat → String} {c c₁ : Content} {parent permlink : String}
      (h : Told s n category) (hwrite : Node.Moves s (.upsert c) n true n₁)
      (hstored : n₁.ledger.at? c.address = some c₁)
      (htold : Node.Moves s (.apply (if c₁.isOpen then .comment c.address parent permlink
        else .payoutUpdate c.address)) n₁ true n') :
      Told s n' (Function.update category c₁.id (n₁.ledger.source.categoryOf s.maxReplyDepth c₁))
  | vote {n n₁ n' : Node} {category : Nat → String} {a : Address} {rshares : Int64}
      {votes : Int32} {voter : String} {weight : Int16} (h : Told s n category)
      (hvote : Node.Moves s (.applyVote a rshares votes) n true n₁)
      (htold : Node.Moves s (.apply (.vote voter a weight)) n₁ true n') : Told s n' category
  | close {n n₁ n' : Node} {category : Nat → String} {a : Address} (h : Told s n category)
      (hclose : Node.Moves s (.closePayout a) n true n₁)
      (htold : Node.Moves s (.apply (.payoutUpdate a)) n₁ true n') : Told s n' category
  | remove {n n₁ n' : Node} {category : Nat → String} {a b : Address} (h : Told s n category)
      (hremove : Node.Moves s (.remove a) n true n₁) (hauthor : b.author = a.author)
      (htold : Node.Moves s (.apply (.delete b)) n₁ true n') : Told s n' category

/-- Open content is filed by its metadata as it is now, closed content is not filed, and every entry
is of content that is there. -/
structure Node.InStep (s : Settings) (n : Node) : Prop where
  names : ∀ id c, n.ledger.byId? id = some c → c.isOpen = true →
    n.catalog.topicsOfContent id = .ofList (n.ledger.source.classify s c).topics
  closed : ∀ id c, n.ledger.byId? id = some c → c.isOpen = false →
    n.catalog.entriesOfContent id = []
  live : ∀ id e, n.catalog.table.get? id = some e → ∃ c, n.ledger.byId? e.content = some c

/-- The same, but for categories that are those of the last write. -/
structure Node.InStepSince (s : Settings) (category : Nat → String) (n : Node) : Prop where
  names : ∀ id c, n.ledger.byId? id = some c → c.isOpen = true → n.catalog.topicsOfContent id =
    .ofList (Classification.extract s (if s.includeCategory then category id else "")
      c.jsonMetadata).topics
  names_now : ∀ id c, n.ledger.byId? id = some c → c.isOpen = true →
    (c.isRoot = true ∨ s.includeCategory = false ∨
      category id = n.ledger.source.categoryOf s.maxReplyDepth c) →
    n.catalog.topicsOfContent id = .ofList (n.ledger.source.classify s c).topics
  closed : ∀ id c, n.ledger.byId? id = some c → c.isOpen = false →
    n.catalog.entriesOfContent id = []
  live : ∀ id e, n.catalog.table.get? id = some e → ∃ c, n.ledger.byId? e.content = some c

variable {s : Settings} {n n' : Node} {F : Filed} {category : Nat → String}

/-- Content is filed as its own fields and a category say. -/
structure Content.FiledBy (s : Settings) (category : String) (topics : Std.ExtTreeSet Topic)
    (c : Content) : Prop where
  opened : c.isOpen = true → topics = .ofList (Classification.extract s
    (if s.includeCategory then category else "") c.jsonMetadata).topics
  closed : c.isOpen = false → topics = ∅
  root : c.isRoot = true → category = c.parentPermlink

theorem Content.FiledBy.of_unanswered {topics : Std.ExtTreeSet Topic} {category : String}
    {c c' : Content} (h : c.FiledBy s category topics) (hc : c'.unanswered = c.unanswered) :
    c'.FiledBy s category topics := by
  have hh : c.unanswered.FiledBy s category topics := ⟨h.opened, h.closed, h.root⟩
  rw [← hc] at hh
  exact ⟨hh.opened, hh.closed, hh.root⟩

structure Ledger.FiledBy (s : Settings) (category : Nat → String) (F : Filed) (l : Ledger) :
    Prop where
  stored : ∀ id c, l.byId? id = some c → c.FiledBy s (category id) (F.topics id)
  gone : ∀ id, l.byId? id = none → F.topics id = ∅

theorem Ledger.FiledBy.of_changed {l l' : Ledger} {id : Nat} {F' : Filed}
    {category' : Nat → String} (h : l.FiledBy s category F) (hl : Changed id l l')
    (htopics : ∀ j, j ≠ id → F'.topics j = F.topics j)
    (hcategory : ∀ j, j ≠ id → category' j = category j)
    (hstored : ∀ c, l'.byId? id = some c → c.FiledBy s (category' id) (F'.topics id))
    (hgone : l'.byId? id = none → F'.topics id = ∅) : l'.FiledBy s category' F' where
  stored j c hc := by
    by_cases hj : j = id
    · subst hj
      exact hstored c hc
    · obtain ⟨b, hb, hbc⟩ := Content.exists_of_map_unanswered (hl.others j hj) hc
      rw [htopics j hj, hcategory j hj]
      exact (h.stored j b hb).of_unanswered hbc.symm
  gone j hj := by
    by_cases hid : j = id
    · subst hid
      exact hgone hj
    · have hbefore := Content.eq_none_of_map_unanswered (hl.others j hid) hj
      rw [htopics j hid]
      exact h.gone j hbefore

theorem Filed.topicsAfter_told {l : Ledger} {a : Address} {c : Content} (hc : l.at? a = some c)
    (parent permlink : String) (F : Filed) :
    F.topicsAfter s l true
        (.apply (if c.isOpen then .comment a parent permlink else .payoutUpdate a)) =
      Function.update F.topics c.id
        (if c.isOpen then .ofList (l.source.classify s c).topics else ∅) := by
  by_cases hopen : c.isOpen = true
  · simp [hopen, topicsAfter, hc]
  · simp [hopen, topicsAfter, hc]

namespace Ledger.FiledBy

variable {n₁ : Node} (hF : History s n F) (h : n.ledger.FiledBy s category F)
include hF h

theorem write {c c₁ : Content} {parent permlink : String}
    (hwrite : Node.Moves s (.upsert c) n true n₁) (hstored : n₁.ledger.at? c.address = some c₁) :
    n₁.ledger.FiledBy s
      (Function.update category c₁.id (n₁.ledger.source.categoryOf s.maxReplyDepth c₁))
      ((F.after s n.ledger n₁.ledger true (.upsert c)).after s n₁.ledger n₁.ledger true
        (.apply (if c₁.isOpen then .comment c.address parent permlink
          else .payoutUpdate c.address))) := by
  obtain ⟨id, hchanged, children, depth, hnew, -⟩ := hwrite.upserted hF.holds.ledger
  obtain ⟨hc₁, haddress⟩ := hchanged.coherent.at?_eq_some.mp hstored
  obtain rfl : id = c₁.id := hchanged.coherent.id_eq_of_address hnew hc₁ haddress.symm
  have htopics := Filed.topicsAfter_told (s := s) hstored parent permlink
    (F.after s n.ledger n₁.ledger true (.upsert c))
  refine h.of_changed hchanged ?_ ?_ ?_ ?_
  · intro j hj
    simp only [Filed.after] at htopics ⊢
    rw [htopics, Function.update_of_ne hj]
    rfl
  · exact fun j hj => Function.update_of_ne hj _ _
  · intro b hb
    obtain rfl := Option.some.inj (hc₁.symm.trans hb)
    simp only [Filed.after] at htopics ⊢
    rw [htopics, Function.update_self, Function.update_self]
    refine ⟨fun hopen => ?_, fun hclosed => by simp [hclosed], fun hroot => ?_⟩
    · rw [if_pos hopen]
      rfl
    · unfold ContentSource.categoryOf
      rw [if_pos hroot]
  · intro hnone
    rw [hc₁] at hnone
    cases hnone

theorem vote {a : Address} {rshares : Int64} {votes : Int32} {voter : String} {weight : Int16}
    (hvote : Node.Moves s (.applyVote a rshares votes) n true n₁) :
    n₁.ledger.FiledBy s category
      ((F.after s n.ledger n₁.ledger true (.applyVote a rshares votes)).after s n₁.ledger n₁.ledger
        true (.apply (.vote voter a weight))) := by
  obtain ⟨c, hat, hchanged, netRshares, netVotes, hnew⟩ := hvote.voted hF.holds.ledger
  have hc := (hF.holds.ledger.at?_eq_some.mp hat).1
  refine h.of_changed hchanged (fun _ _ => rfl) (fun _ _ => rfl) ?_ ?_
  · intro b hb
    obtain rfl := Option.some.inj (hnew.symm.trans hb)
    have hstored := h.stored _ _ hc
    exact ⟨hstored.opened, hstored.closed, hstored.root⟩
  · intro hnone
    rw [hnew] at hnone
    cases hnone

theorem close {a : Address} (hclose : Node.Moves s (.closePayout a) n true n₁) :
    n₁.ledger.FiledBy s category
      ((F.after s n.ledger n₁.ledger true (.closePayout a)).after s n₁.ledger n₁.ledger true
        (.apply (.payoutUpdate a))) := by
  obtain ⟨c, hat, hnew, hchanged⟩ := hclose.closed hF.holds.ledger
  obtain ⟨hc, haddress⟩ := hF.holds.ledger.at?_eq_some.mp hat
  have hat₁ : n₁.ledger.at? a = some { c with cashoutTime := none } :=
    hchanged.coherent.at?_eq_some.mpr ⟨hnew, haddress⟩
  have htopics := Filed.topicsAfter_told (s := s) hat₁ "" ""
    (F.after s n.ledger n₁.ledger true (.closePayout a))
  refine h.of_changed hchanged ?_ (fun _ _ => rfl) ?_ ?_
  · intro j hj
    simp only [Filed.after] at htopics ⊢
    refine (congrFun htopics j).trans ?_
    rw [Function.update_of_ne hj]
    rfl
  · intro b hb
    obtain rfl := Option.some.inj (hnew.symm.trans hb)
    refine ⟨fun hopen => (by cases hopen), fun _ => ?_, (h.stored _ _ hc).root⟩
    simp only [Filed.after] at htopics ⊢
    refine (congrFun htopics c.id).trans ?_
    rw [Function.update_self]
    rfl
  · intro hnone
    rw [hnew] at hnone
    cases hnone

theorem remove {a b : Address} (hremove : Node.Moves s (.remove a) n true n₁)
    (hauthor : b.author = a.author) :
    n₁.ledger.FiledBy s category
      ((F.after s n.ledger n₁.ledger true (.remove a)).after s n₁.ledger n₁.ledger true
        (.apply (.delete b))) := by
  obtain ⟨c, hat, hnone, hchanged⟩ := hremove.removed hF.holds.ledger
  obtain ⟨hc, haddress⟩ := hF.holds.ledger.at?_eq_some.mp hat
  have hwriter : F.authorAfter n₁.ledger c.id = some b.author := by
    have hca : c.author = b.author := (congrArg Address.author haddress).trans hauthor.symm
    have hold := hF.holds.author c.id c hc
    rw [hca] at hold
    exact hF.holds.author_mono hchanged.follows hold
  have htopics (j : Nat) : ((F.after s n.ledger n₁.ledger true (.remove a)).after s n₁.ledger
      n₁.ledger true (.apply (.delete b))).topics j =
      if n₁.ledger.byId? j = none ∧ F.authorAfter n₁.ledger j = some b.author then ∅
      else F.topics j := rfl
  refine h.of_changed hchanged ?_ (fun _ _ => rfl) ?_ ?_
  · intro j hj
    rw [htopics]
    split
    · -- What was gone before has no topics left to lose.
      rename_i hgone
      have hbefore := Content.eq_none_of_map_unanswered (hchanged.others j hj) hgone.1
      exact (h.gone j hbefore).symm
    · rfl
  · intro b hb
    rw [hnone] at hb
    cases hb
  · intro _
    rw [htopics, if_pos ⟨hnone, hwriter⟩]

end Ledger.FiledBy

theorem Told.filedBy (h : Told s n category) :
    ∃ F, History s n F ∧ n.ledger.FiledBy s category F := by
  induction h with
  | start => exact ⟨{}, .start, by simp [Ledger.empty, Ledger.byId?], fun _ _ => rfl⟩
  | write _ hwrite hstored htold ih =>
    obtain ⟨F, hF, hfiled⟩ := ih
    refine ⟨_, (hF.move hwrite).move htold, ?_⟩
    rw [htold.ledger_eq]
    exact hfiled.write hF hwrite hstored
  | vote _ hvote htold ih =>
    obtain ⟨F, hF, hfiled⟩ := ih
    refine ⟨_, (hF.move hvote).move htold, ?_⟩
    rw [htold.ledger_eq]
    exact hfiled.vote hF hvote
  | close _ hclose htold ih =>
    obtain ⟨F, hF, hfiled⟩ := ih
    refine ⟨_, (hF.move hclose).move htold, ?_⟩
    rw [htold.ledger_eq]
    exact hfiled.close hF hclose
  | remove _ hremove hauthor htold ih =>
    obtain ⟨F, hF, hfiled⟩ := ih
    refine ⟨_, (hF.move hremove).move htold, ?_⟩
    rw [htold.ledger_eq]
    exact hfiled.remove hF hremove hauthor

/-- A catalog that is told of every write is in step with the ledger, but that a category is the one
of the last write to the content itself. A category that has not changed since is the one of now. -/
theorem Told.inStepSince (h : Told s n category) : n.InStepSince s category := by
  obtain ⟨F, hF, hfiled⟩ := h.filedBy
  have hh := hF.holds
  have hnames : ∀ id c, n.ledger.byId? id = some c → c.isOpen = true →
      n.catalog.topicsOfContent id = .ofList (Classification.extract s
        (if s.includeCategory then category id else "") c.jsonMetadata).topics := by
    intro id c hc hopen
    rw [hh.topicsOfContent id]
    exact (hfiled.stored id c hc).opened hopen
  refine ⟨hnames, ?_, ?_, ?_⟩
  · intro id c hc hopen hcategory
    rw [hnames id c hc hopen, ContentSource.classify]
    rcases hcategory with hroot | hoff | hsame
    · have hown : n.ledger.source.categoryOf s.maxReplyDepth c = c.parentPermlink := by
        unfold ContentSource.categoryOf
        rw [if_pos hroot]
      rw [hown, (hfiled.stored id c hc).root hroot]
    · rw [hoff]
      rfl
    · rw [hsame]
  · intro id c hc hclosed
    have hnone : F.topics id = ∅ := (hfiled.stored id c hc).closed hclosed
    rw [List.eq_nil_iff_forall_not_mem]
    intro e he
    obtain ⟨⟨i, hi⟩, hcontent⟩ := (Catalog.mem_entriesOfContent hh.catalog).mp he
    have hmem := (hh.names.names id e.topic).mp ⟨e.author, i, e, hi, hcontent, rfl, rfl⟩
    simp [hnone] at hmem
  · intro id e he
    have hmem := (hh.names.names e.content e.topic).mp ⟨e.author, id, e, he, rfl, rfl, rfl⟩
    refine Option.ne_none_iff_exists'.mp fun hgone => ?_
    simp [hfiled.gone _ hgone] at hmem

theorem Told.write_next (h : Told s n category) (c c₁ : Content)
    (hwrite : n.returns s (.upsert c) = true)
    (hstored : (n.next s (.upsert c)).ledger.at? c.address = some c₁) (hopen : c₁.isOpen = true)
    (htold : (n.next s (.upsert c)).returns s
      (.apply (.comment c.address c.parentAuthor c.parentPermlink)) = true) :
    ∃ category', Told s ((n.next s (.upsert c)).next s
      (.apply (.comment c.address c.parentAuthor c.parentPermlink))) category' := by
  let n₁ := n.next s (.upsert c)
  let told := Operation.comment c.address c.parentAuthor c.parentPermlink
  have hop : (if c₁.isOpen then told else .payoutUpdate c.address) = told := if_pos hopen
  have hmoves : Node.Moves s (.apply told) n₁ true (n₁.next s (.apply told)) :=
    Node.moves_next htold
  rw [← hop] at hmoves
  exact ⟨_, hop ▸ h.write (Node.moves_next hwrite) hstored hmoves⟩

def replyPost : Content :=
  { (Content.post ⟨"bob", "answer"⟩ .epoch).replyTo ⟨"alice", "morning"⟩ with
    cashoutTime := some .last }

def replyFiled : Node :=
  (rootFiled.next {} (.upsert replyPost)).next {}
    (.apply (.comment ⟨"bob", "answer"⟩ "alice" "morning"))

theorem exists_history_replyFiled : ∃ F, History {} replyFiled F := by
  have hwritten : ∃ F, History {} (rootFiled.next {} (.upsert replyPost)) F :=
    History.exists_next exists_history_rootFiled (by decide +kernel)
  exact History.exists_next hwritten (by decide +kernel)

/-- The root post has moved to another category after the reply was written. -/
def rootRefiled : Node :=
  (replyFiled.next {} (.upsert (rootPost "sports"))).next {}
    (.apply (.comment ⟨"alice", "morning"⟩ "" "sports"))

theorem exists_told_rootRefiled : ∃ category, Told {} rootRefiled category := by
  obtain ⟨_, hroot⟩ := (Told.start (s := {})).write_next (rootPost "news")
    { rootPost "news" with id := 1 } (by decide +kernel) (by decide +kernel) rfl
    (by decide +kernel)
  obtain ⟨_, hreply⟩ := hroot.write_next replyPost { replyPost with id := 2, depth := 1 }
    (by decide +kernel) (by decide +kernel) rfl (by decide +kernel)
  exact hreply.write_next (rootPost "sports")
    { rootPost "sports" with id := 1, children := 1 } (by decide +kernel) (by decide +kernel) rfl
    (by decide +kernel)

theorem rootRefiled_names :
    (rootRefiled.catalog.topicsOfContent 2).toList = [.tag "news"] := by decide +kernel

/-- The reply keeps the category that its root has left. -/
theorem Told.not_inStep :
    ¬ ∀ s n category, s.validate = .ok () → Told s n category → n.InStep s := by
  intro h
  obtain ⟨category, htold⟩ := exists_told_rootRefiled
  have hstep := h {} rootRefiled category rfl htold
  have hstored : rootRefiled.ledger.byId? 2 = some { replyPost with id := 2, depth := 1 } := by
    decide +kernel
  have hnow : (rootRefiled.ledger.source.classify {} { replyPost with id := 2, depth := 1 }).topics =
      [.tag "sports"] := by decide +kernel
  have hnames := congrArg Std.ExtTreeSet.toList (hstep.names 2 _ hstored rfl)
  rw [rootRefiled_names, hnow] at hnames
  exact absurd hnames (by decide +kernel)

theorem Told.inStepSince_rootRefiled :
    ∃ category, Told {} rootRefiled category ∧ rootRefiled.InStepSince {} category ∧
      (rootRefiled.catalog.topicsOfContent 2).toList = [.tag "news"] := by
  obtain ⟨category, htold⟩ := exists_told_rootRefiled
  exact ⟨category, htold, Told.inStepSince htold, rootRefiled_names⟩

end TagCatalog
