import EffectMachine.Generator.Definition
import EffectMachine.KeyFrames
import EffectMachine.Routine.Definition

namespace EffectMachine

inductive ResourceKind where
  | routine
  | generator
  | keyFrames
deriving DecidableEq

namespace ResourceKind

def ending : ResourceKind → String
  | routine => "routine"
  | generator => "generator"
  | keyFrames => "keyframes"

def name : ResourceKind → String
  | routine => "Routine"
  | generator => "Generator"
  | keyFrames => "KeyFrames"

def ofEnding? (ending : String) : Option ResourceKind :=
  [routine, generator, keyFrames].find? fun kind => kind.ending = ending

end ResourceKind

inductive Resource where
  | routine (definition : Routine)
  | generator (definition : Generator)
  | keyFrames (set : KeyFrameSet)

namespace Resource

def kind : Resource → ResourceKind
  | routine _ => .routine
  | generator _ => .generator
  | keyFrames _ => .keyFrames

def decode (kind : ResourceKind) (id : ResourceId) (path : ResourcePath) (config : Config)
    (data : List UInt8) : Except Fault Resource × Log :=
  match kind with
  | .routine => (Routine.decode id path config data).map (·.map routine) fun log => log
  | .generator => (Generator.decode id path data).map (·.map generator) fun log => log
  | .keyFrames => (KeyFrameSet.decode id data).map (·.map keyFrames) fun log => log

end Resource

inductive SearchScope where
  | inside (path : ResourcePath)
  /-- A directory, then its parents up to the root. -/
  | ancestors (path : ResourcePath)
  /-- Every directory, the root first. -/
  | everywhere
deriving DecidableEq

structure ResourceKey where
  path : ResourcePath
  kind : ResourceKind
  id : ResourceId
deriving DecidableEq

/-- Decoded resources by place, kind and name, one for each. -/
structure Directory where
  entries : List (ResourceKey × Resource) := []

namespace Directory

/-- Puts a resource in its place; the last one put there stays. -/
def insert (d : Directory) (path : ResourcePath) (id : ResourceId) (resource : Resource) :
    Directory :=
  let key : ResourceKey := ⟨path, resource.kind, id⟩
  ⟨(key, resource) :: d.entries.filter fun e => e.1 ≠ key⟩

def size (d : Directory) : Nat := d.entries.length

def get? (d : Directory) (key : ResourceKey) : Option Resource := d.entries.lookup key

/-- The root first, then by the text of the path. -/
def pathOrder (p q : ResourcePath) : Bool :=
  if p.isRoot then true else if q.isRoot then false else p.display ≤ q.display

def directories (d : Directory) : List ResourcePath :=
  (d.entries.map fun e => e.1.path).eraseDups.mergeSort pathOrder

def searchPaths (d : Directory) : SearchScope → List ResourcePath
  | .inside path => [path]
  | .ancestors path => path.ancestors
  | .everywhere => d.directories

/-- The first hit on the search path; the empty name names nothing. -/
def resolve (d : Directory) (id : ResourceId) (kind : ResourceKind) (scope : SearchScope) :
    Option Resource :=
  if id.isNone then none
  else (d.searchPaths scope).findSome? fun path => d.get? ⟨path, kind, id⟩

def routine? (d : Directory) (id : ResourceId) (scope : SearchScope) : Option Routine :=
  match d.resolve id .routine scope with
  | some (.routine r) => some r
  | _ => none

def generator? (d : Directory) (id : ResourceId) (scope : SearchScope) : Option Generator :=
  match d.resolve id .generator scope with
  | some (.generator g) => some g
  | _ => none

def keyFrames? (d : Directory) (id : ResourceId) (scope : SearchScope) : Option KeyFrameSet :=
  match d.resolve id .keyFrames scope with
  | some (.keyFrames s) => some s
  | _ => none

end Directory
end EffectMachine
