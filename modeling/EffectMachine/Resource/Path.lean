import EffectMachine.Resource.Id

namespace EffectMachine

/-- The names from the root downwards; the root has none. -/
structure ResourcePath where
  segments : List ResourceId
deriving DecidableEq

namespace ResourcePath

def root : ResourcePath := ⟨[]⟩

instance : Inhabited ResourcePath := ⟨root⟩

def isRoot (p : ResourcePath) : Bool := p.segments.isEmpty

def child (p : ResourcePath) (id : ResourceId) : ResourcePath := ⟨p.segments ++ [id]⟩

def parent? (p : ResourcePath) : Option ResourcePath :=
  if p.segments.isEmpty then none else some ⟨p.segments.dropLast⟩

def leaf? (p : ResourcePath) : Option ResourceId := p.segments.getLast?

/-- The path and its parents, innermost first, down to the root. -/
def ancestors (p : ResourcePath) : List ResourcePath :=
  (List.range (p.segments.length + 1)).reverse.map fun n => ⟨p.segments.take n⟩

def display (p : ResourcePath) : String :=
  if p.segments.isEmpty then "/"
  else String.join (p.segments.map fun id => "/" ++ id.name)

end ResourcePath
end EffectMachine
