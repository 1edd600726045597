import TagCatalog.Json.Reader

/-! Objects and arrays read as records. Members of an object of other names than the record's fields
are passed over, whatever they hold; a field given twice makes the record unreadable. An array gives
the fields in their order. -/

namespace TagCatalog.Json

abbrev Fields := List (String × Draft)

/-- Every key has to be spelt out, even one that is passed over. An array may break off before the
last of the fields, but goes on past none. -/
def Draft.fields? (known : List String) : Draft → Option Fields
  | .obj members => do
    let named ← members.mapM fun (key, d) => key.map (·, d)
    let fields := named.filter fun m => known.contains m.1
    if (fields.map (·.1)).Nodup then some fields else none
  | .arr items => if items.length ≤ known.length then some (known.zip items) else none
  | _ => none

/-- An array says what the object says that gives its items the names of the fields. -/
theorem Draft.fields?_arr {known : List String} (hknown : known.Nodup) {items : List Draft}
    (h : items.length ≤ known.length) :
    (Draft.arr items).fields? known =
      (Draft.obj ((known.zip items).map fun m => (some m.1, m.2))).fields? known := by
  have hnamed (fields : Fields) : (fields.map fun m => (some m.1, m.2)).mapM
      (fun (key, d) => key.map (·, d)) = some fields := by
    induction fields with
    | nil => rfl
    | cons field fields ih => simp_all [List.mapM_cons]
  have hkept : (known.zip items).filter (fun m => known.contains m.1) = known.zip items := by
    rw [List.filter_eq_self]
    intro m hm
    exact List.contains_iff_mem.mpr (List.of_mem_zip hm).1
  have hnames : (known.zip items).map (·.1) = known.take items.length := by
    rw [List.zip_eq_zip_take_min, List.map_fst_zip (by simp), Nat.min_eq_right h]
  have hnodup : ((known.zip items).map (·.1)).Nodup := hnames ▸ hknown.sublist (List.take_sublist ..)
  simp only [fields?, h, if_true, hnamed, Option.bind_eq_bind, Option.bind_some, hkept, hnodup]

namespace Fields

def find? (fields : Fields) (name : String) : Option Draft :=
  (List.find? (·.1 = name) fields).map (·.2)

def optional? (fields : Fields) (name : String) (default : α) (read : Draft → Option α) :
    Option α :=
  match fields.find? name with
  | none => some default
  | some d => read d

def required? (fields : Fields) (name : String) (read : Draft → Option α) : Option α :=
  (fields.find? name).bind read

end Fields

def Draft.as? (read : Json → Option α) (d : Draft) : Option α :=
  (d.resolve? maxLevels).bind read

end TagCatalog.Json
