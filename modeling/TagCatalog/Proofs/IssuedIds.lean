import TagCatalog.Proofs.EntryEdits
import TagCatalog.Proofs.Footprint

/-! How many entry ids each call of upkeep gives out. The table counts up by what the report says was
created, and an id below that count which is free stays free. -/

namespace TagCatalog

namespace EntryTable

/-- So many new ids are given out, and no old one is given again. -/
structure Issues (k : Nat) (t u : EntryTable) : Prop where
  nextId : u.nextId = t.nextId + k
  free : ∀ id < t.nextId, t.get? id = none → u.get? id = none

variable {t u v : EntryTable}

theorem Issues.refl (t : EntryTable) : Issues 0 t t := ⟨rfl, fun _ _ h => h⟩

theorem Issues.trans {j k : Nat} (h : Issues j t u) (h' : Issues k u v) : Issues (j + k) t v := by
  refine ⟨?_, fun id hid hnone => ?_⟩
  · rw [h'.nextId, h.nextId, Nat.add_assoc]
  · have hlt : id < u.nextId := by
      rw [h.nextId]
      omega
    exact h'.free id hlt (h.free id hid hnone)

variable {failed : Fault → EntryTable → Prop}

theorem yields_insert_issues (e : Entry) :
    Update.Yields (insert e) t (fun _ u => Issues 1 t u) fun _ _ => True := by
  rw [Update.Yields, insert_eq]
  split
  · rename_i hrun
    split at hrun
    · cases hrun
    · obtain ⟨-, rfl⟩ := EStateM.Result.ok.inj hrun
      refine ⟨rfl, fun id hid hnone => ?_⟩
      simp only [get?, put, getElem?_insert_eq]
      rw [if_neg (by omega)]
      exact hnone
  · trivial
  · trivial

theorem yields_replace_issues (e : Entry) :
    Update.Yields (replace e) t (fun _ u => Issues 0 t u) fun _ _ => True := by
  rw [Update.Yields, replace_eq]
  cases hold : t.get? e.id with
  | none => trivial
  | some old =>
    dsimp only
    split
    · rename_i hrun
      split at hrun
      · obtain ⟨-, rfl⟩ := EStateM.Result.ok.inj hrun
        refine ⟨rfl, fun id _ hnone => ?_⟩
        have hne : e.id ≠ id := by
          rintro rfl
          cases hold.symm.trans hnone
        simp only [get?, put, getElem?_insert_eq, if_neg hne]
        exact hnone
      · cases hrun
    · trivial
    · trivial

theorem yields_remove_issues (id : Nat) :
    Update.Yields (remove id) t (fun _ u => Issues 0 t u) fun _ _ => True := by
  rw [Update.Yields, remove_eq]
  cases t.get? id with
  | none => trivial
  | some e =>
    refine ⟨rfl, fun i _ hnone => ?_⟩
    simp only [get?, getElem?_erase_eq]
    split
    · rfl
    · exact hnone

end EntryTable

namespace Catalog

open EntryTable (Issues)

variable {s : Settings} {source : ContentSource} {c d : Catalog}

theorem yields_file_issues (e : Entry) :
    Update.Yields (file e) c (fun _ d => Issues 1 c.table d.table) fun _ _ => True := by
  simp only [file, Update.yields_bind, yields_onTable, yields_requireEntry]
  refine (EntryTable.yields_insert_issues e).mono (fun id table htable => ?_) fun _ _ _ => trivial
  refine ⟨fun a _ => ?_, fun _ => trivial⟩
  simp only [yields_onTotals]
  -- The table is written before the totals, which no id depends on.
  refine .of_forall (fun _ _ => .of_forall (fun _ _ => ?_) fun _ _ => trivial) fun _ _ => trivial
  split
  · exact htable
  · exact htable

theorem yields_withdrawEntry_issues (id : Nat) :
    Update.Yields (withdrawEntry id) c (fun _ d => Issues 0 c.table d.table) fun _ _ => True := by
  simp only [withdrawEntry, Update.yields_bind, yields_requireEntry, Update.yields_get,
    Update.yields_require, implies_true, and_true]
  intro e _ _ _
  simp only [yields_onTotals, yields_onTable]
  refine .of_forall (fun _ _ => .of_forall (fun _ _ => ?_) fun _ _ => trivial) fun _ _ => trivial
  exact EntryTable.yields_remove_issues id

theorem yields_refreshEntry_issues (content : Content) (id : Nat) :
    Update.Yields (refreshEntry s content id) c (fun _ d => Issues 0 c.table d.table)
      fun _ _ => True := by
  simp only [refreshEntry, Update.yields_bind, yields_requireEntry, implies_true, and_true]
  intro e _
  simp only [yields_onTotals, yields_onTable]
  refine .of_forall (fun _ _ => ?_) fun _ _ => trivial
  exact EntryTable.yields_replace_issues _

theorem yields_place_issues (content : Content) (parent : Option Nat) (present : List Entry)
    (topic : Topic) :
    Update.Yields (place s content parent present topic) c
      (fun _ d => Issues (if present.any (·.topic = topic) then 0 else 1) c.table d.table)
      fun _ _ => True := by
  unfold place
  split
  · rename_i e hfind
    have hany : present.any (·.topic = topic) = true := by
      rw [← List.isSome_find?, hfind]
      rfl
    simp only [hany, if_true]
    exact yields_refreshEntry_issues content e.id
  · rename_i hfind
    have hany : present.any (·.topic = topic) = false := by
      rw [← List.isSome_find?, hfind]
      rfl
    simp only [hany]
    exact yields_file_issues _

theorem yields_placeAll_issues (content : Content) (parent : Option Nat) (present : List Entry)
    (topics : List Topic) :
    Update.Yields (topics.forM (place s content parent present)) c
      (fun _ d => Issues (topics.filter fun t => !present.any (·.topic = t)).length c.table d.table)
      fun _ _ => True := by
  induction topics generalizing c with
  | nil => exact .refl c.table
  | cons topic topics ih =>
    change Update.Yields (place s content parent present topic >>= fun _ => topics.forM _) c _ _
    rw [Update.yields_bind]
    refine (yields_place_issues content parent present topic).imp fun _ d hd => ?_
    refine ih.imp fun _ d' hd' => ?_
    have hcount := hd.trans hd'
    rw [List.filter_cons]
    cases hany : present.any (·.topic = topic) with
    | true => simpa [hany] using hcount
    | false => simpa [hany, Nat.add_comm 1] using hcount

theorem yields_withdrawAll_issues {β : Type} (idOf : β → Nat) (bs : List β) :
    Update.Yields (bs.forM fun b => withdrawEntry (idOf b)) c
      (fun _ d => Issues 0 c.table d.table) fun _ _ => True := by
  refine Update.yields_forM (I := fun _ (d : Catalog) => Issues 0 c.table d.table) bs ?_ (.refl _)
  intro b _ d hd
  exact (yields_withdrawEntry_issues (idOf b)).imp fun _ _ h => hd.trans h

end Catalog

end TagCatalog
