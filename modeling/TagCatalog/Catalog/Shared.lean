import TagCatalog.Catalog.Upkeep

/-! A catalog that many readers share with one writer. An update that overflows leaves it poisoned,
and from then on it refuses to be read or written. -/

namespace TagCatalog

structure SharedCatalog where
  catalog : Catalog := .empty
  poisoned : Bool := false

namespace SharedCatalog

def empty : SharedCatalog := {}

def apply (s : Settings) (source : ContentSource) (op : Operation) :
    Update SharedCatalog Report := fun shared =>
  if shared.poisoned then .error (.fault .poisoned) shared
  else match Catalog.apply s source op shared.catalog with
    | .ok report catalog => .ok report { shared with catalog }
    | .error (.fault f) catalog => .error (.fault f) { shared with catalog }
    | .error .overflow catalog => .error .overflow ⟨catalog, true⟩

def read (shared : SharedCatalog) (view : Catalog → α) : Except Fault α :=
  if shared.poisoned then .error .poisoned else .ok (view shared.catalog)

end SharedCatalog

end TagCatalog
