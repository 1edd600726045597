import TagCatalog.Command.Run
import TagCatalog.Proofs.Audit
import TagCatalog.Proofs.EventFile
import TagCatalog.Proofs.Reachability

/-! The totals of every reachable catalog are those of its entries, and a file that can be replayed
leaves a catalog whose audit lists no drift. -/

namespace TagCatalog

namespace Catalog

/-- Which rows there are, and what stands in them. Payouts and rewards are no sums over entries. -/
structure Tallied (c : Catalog) : Prop where
  topic_isSome : ∀ topic, (c.totals.topic? topic).isSome ↔ ∃ e ∈ c.table.toList, e.topic = topic
  topic_row : ∀ topic row, c.totals.topic? topic = some row →
    row.topPosts = c.table.toList.countP (fun e => e.topic = topic && e.isRoot) ∧
    row.comments = c.table.toList.countP (fun e => e.topic = topic && !e.isRoot) ∧
    row.netVotes = ((c.table.toList.filter (·.topic = topic)).map (·.netVotes.toInt)).sum ∧
    row.childrenRshares2 =
      ((c.table.toList.filter fun e => e.topic = topic && e.isRoot).map (·.childrenRshares2)).sum
  author_isSome : ∀ author topic, (c.totals.author? author topic).isSome ↔
    ∃ e ∈ c.table.toList, e.author = author ∧ e.topic = topic
  author_row : ∀ author topic row, c.totals.author? author topic = some row →
    row.posts = c.table.toList.countP (fun e => e.author = author && e.topic = topic)
  language : ∀ name, name ∈ c.totals.languages ↔
    ∃ e ∈ c.table.toList, e.topic = .language name

variable {c : Catalog}

theorem Sound.tallied (h : c.Sound) : Tallied c where
  topic_isSome topic :=
    Std.ExtTreeMap.mem_iff_isSome_getElem?.symm.trans (h.totals.topics.mem_iff topic)
  topic_row topic row hr := by
    have hrow := h.totals.topics.row_eq topic row hr
    exact ⟨congrArg TopicTotals.topPosts hrow, congrArg TopicTotals.comments hrow,
      congrArg TopicTotals.netVotes hrow, congrArg TopicTotals.childrenRshares2 hrow⟩
  author_isSome author topic := by
    have hmem := h.totals.authors.mem_iff ⟨author, topic⟩
    simp only [Entry.authorship, Authorship.mk.injEq] at hmem
    exact Std.ExtTreeMap.mem_iff_isSome_getElem?.symm.trans hmem
  author_row author topic row hr := by
    have hrow := h.totals.authors.row_eq ⟨author, topic⟩ row hr
    simpa [AuthorTotals.recount, Entry.authorship] using congrArg AuthorTotals.posts hrow
  language := h.totals.languages

end Catalog

namespace Replay

variable {s : Settings} {r : Replay}

theorem yields_step (h : r.catalog.Reachable) (event : Event) :
    Update.Yields (step s event) r (fun _ r' => r'.catalog.Reachable)
      fun _ r' => r'.catalog.Reachable := by
  have hledger {α : Type} (m : Update Ledger α) (r : Replay) (h : r.catalog.Reachable) :
      Update.Yields (onLedger m) r (fun _ r' => r'.catalog.Reachable)
        fun _ r' => r'.catalog.Reachable := by
    rw [onLedger, Update.yields_within]
    exact .of_forall (fun _ _ => h) fun _ _ => h
  cases event with
  | upsert content =>
    simp only [step, Update.yields_bind, Update.yields_modify, Update.yields_pure]
    exact hledger _ _ h
  | remove address =>
    simp only [step, Update.yields_bind, Update.yields_modify, Update.yields_pure]
    exact hledger _ _ h
  | op operation =>
    simp only [step, Update.yields_bind, Update.yields_modify, Update.yields_get, onCatalog,
      Update.yields_within]
    exact h.yields_apply s r.ledger.source operation

theorem yields_line (h : r.catalog.Reachable) (text : String) :
    Update.Yields (line s text) r (fun _ r' => r'.catalog.Reachable)
      fun _ r' => r'.catalog.Reachable := by
  unfold line
  split
  · exact h
  · exact h
  · split
    · exact yields_step h _
    · exact h

theorem yields_runLines (h : r.catalog.Reachable) (ls : List (List UInt8)) :
    Update.Yields (runLines s ls) r (fun _ r' => r'.catalog.Reachable)
      fun _ r' => r'.catalog.Reachable := by
  induction ls generalizing r with
  | nil => exact h
  | cons bytes rest ih =>
    unfold runLines
    split
    · exact h
    · rw [Update.yields_bind]
      exact (yields_line h _).imp fun _ r' hr' => ih hr'

theorem reachable_of_run {bytes : ByteArray} (h : run s bytes = .ok r) : r.catalog.Reachable := by
  have hempty : Replay.empty.catalog.Reachable := .refl
  unfold run at h
  split at h
  · rename_i r' hr
    obtain rfl := Except.ok.inj h
    exact (yields_runLines hempty _).of_ok hr
  · exact nomatch h

end Replay

theorem Command.run_verify_iff {env : Environment} {s : Settings} {file : String}
    {outcome : Outcome} : Command.run env s (.verify file) = .ok outcome ↔
      ∃ bytes r, env.file? file = some bytes ∧ Replay.run s bytes = .ok r ∧
        outcome = { answer := .verify r.catalog.audit } := by
  simp only [Command.run, Environment.replay, Environment.require, bind, Except.bind, pure,
    Except.pure]
  cases hfile : env.file? file with
  | none => simp
  | some bytes => cases hr : Replay.run s bytes <;> simp [hr, Except.mapError, eq_comm]

/-- Conservation: whatever calls led to a catalog, and however they ended, its totals are those of
its entries. -/
theorem Catalog.conservation :
    (∀ c, Reachable c → c.Tallied ∧ c.audit.drift = []) ∧
    ∀ env s file outcome, Command.run env s (.verify file) = .ok outcome →
      ∃ audit, outcome.answer = .verify audit ∧ audit.drift = [] := by
  constructor
  · intro c h
    exact ⟨h.sound.tallied, h.sound.audit_drift⟩
  · intro env s file outcome h
    obtain ⟨bytes, r, -, hr, rfl⟩ := Command.run_verify_iff.mp h
    exact ⟨r.catalog.audit, rfl, (Replay.reachable_of_run hr).sound.audit_drift⟩

def answerEnvironment : Environment where
  file? path := if path = "answer" then some answerFile else none

/-- The entries of the post are left, and what the reply had is gone from the totals. -/
theorem Catalog.conservation_answerFile :
    ∃ r, Replay.run {} answerFile = .ok r ∧ Reachable r.catalog ∧ r.catalog.table.size = 2 ∧
      r.catalog.table.nextId = 3 ∧ r.catalog.Tallied ∧ r.catalog.audit.drift = [] ∧
      ∃ outcome, Command.run answerEnvironment {} (.verify "answer") = .ok outcome ∧
        ∃ audit, outcome.answer = .verify audit ∧ audit.drift = [] := by
  have hcounts : (Replay.run {} answerFile).toOption.map
      (fun r => (r.catalog.table.size, r.catalog.table.nextId)) = some (2, 3) := by
    rw [Replay.run_of_events events?_answerFile]
    decide +kernel
  cases hrun : Replay.run {} answerFile with
  | error halt =>
    rw [hrun] at hcounts
    cases hcounts
  | ok r =>
    rw [hrun] at hcounts
    obtain ⟨hsize, hnext⟩ := Prod.mk.inj (Option.some.inj hcounts)
    have hreachable := Replay.reachable_of_run hrun
    have hfile : answerEnvironment.file? "answer" = some answerFile := by simp [answerEnvironment]
    have hverify := Command.run_verify_iff.mpr ⟨_, r, hfile, hrun, rfl⟩
    obtain ⟨hconserved, hverified⟩ := conservation
    obtain ⟨htallied, hdrift⟩ := hconserved r.catalog hreachable
    exact ⟨r, rfl, hreachable, hsize, hnext, htallied, hdrift, _, hverify,
      hverified _ _ _ _ hverify⟩

end TagCatalog
