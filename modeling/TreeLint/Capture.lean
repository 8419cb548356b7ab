import TreeLint.Tree.Basic

/-!
# Captures

A capture is what a name stands for in a match: one node, or a run of siblings that may be empty. Its attributes are
read off the tree.
-/

namespace TreeLint

inductive Binding where
  | one (id : Nat)
  | run (ids : List Nat)
  deriving DecidableEq, Hashable, Inhabited, Repr

def Binding.ids : Binding → List Nat
  | one id => [id]
  | run ids => ids

def Binding.isRun : Binding → Bool
  | one _ => false
  | run _ => true

/-- Names with what they stand for, in the order they were bound. -/
abbrev Bindings := List (String × Binding)

def Bindings.get? (bindings : Bindings) (name : String) : Option Binding :=
  bindings.lookup name

def Bindings.has (bindings : Bindings) (name : String) : Bool :=
  (bindings.get? name).isSome

def Bindings.put (bindings : Bindings) (name : String) (binding : Binding) : Bindings :=
  bindings.filter (·.1 != name) ++ [(name, binding)]

def Bindings.add (bindings others : Bindings) : Bindings :=
  others.foldl (fun bindings (name, binding) => bindings.put name binding) bindings

def Bindings.only (bindings : Bindings) (names : List String) : Bindings :=
  names.filterMap fun name => (bindings.get? name).map (name, ·)

def Bindings.sorted (bindings : Bindings) : Bindings :=
  bindings.mergeSort fun a b => a.1 ≤ b.1

inductive Attribute where
  | text
  | kind
  | start
  | stop
  | line
  | column
  | count
  deriving DecidableEq, Inhabited, Repr

namespace Attribute

def name : Attribute → String
  | text => "text"
  | kind => "kind"
  | start => "start"
  | stop => "end"
  | line => "line"
  | column => "column"
  | count => "count"

def all : List Attribute :=
  [column, count, stop, kind, line, start, text]

def ofName? (name : String) : Option Attribute :=
  all.find? (·.name == name)

end Attribute

namespace Binding

def start (tree : Tree) (binding : Binding) : Nat :=
  match binding.ids.head? with
  | some id => (tree.node id).start
  | none => 0

def stop (tree : Tree) (binding : Binding) : Nat :=
  match binding.ids.getLast? with
  | some id => (tree.node id).stop
  | none => 0

def text (tree : Tree) (binding : Binding) : Text :=
  if binding.ids.isEmpty then [] else tree.source.slice (binding.start tree) (binding.stop tree)

def kind (tree : Tree) (binding : Binding) : String :=
  match binding.ids.head? with
  | some id => (tree.node id).kind
  | none => ""

def line (tree : Tree) (binding : Binding) : Int :=
  (tree.source.lineColumn (binding.start tree)).1

def column (tree : Tree) (binding : Binding) : Int :=
  (tree.source.lineColumn (binding.start tree)).2

def count (binding : Binding) : Nat :=
  binding.ids.length

def summary (tree : Tree) (binding : Binding) : String :=
  "CaptureRef(" ++ (binding.text tree).quoted ++ ")"

end Binding

end TreeLint
