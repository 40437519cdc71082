import Lox.Value.Basic

/-!
# Environments

An environment binds names to values and is enclosed by another one, unless it is global.
Environments are shared: several may be enclosed by the same one, and a function keeps the one it
was declared in. They live in a heap and are known by their addresses, which are given out in order,
so that an environment has a greater address than the one that encloses it.
-/

namespace Lox

/-- Names with their values, each name at most once. -/
abbrev Bindings := List (Bytes × Value)

/-- Bindings in which `name` has the value `v`, and every other name has the one it had. -/
def Bindings.set (name : Bytes) (v : Value) : Bindings → Bindings
  | [] => [(name, v)]
  | (x, w) :: rest =>
    if x = name then (name, v) :: rest else (x, w) :: Bindings.set name v rest

/-- Names with values, and the environment around them. -/
structure Env where
  bindings : Bindings
  enclosing : Option EnvId

/-- All environments there are, by their addresses. -/
structure Heap where
  envs : Array Env

namespace Heap

/-- A heap without environments. -/
def empty : Heap := ⟨#[]⟩

/-- The address that the next new environment gets. -/
def nextId (h : Heap) : EnvId := h.envs.size

/-- A heap with one more environment, which has no bindings. -/
def push (h : Heap) (enclosing : Option EnvId) : Heap := ⟨h.envs.push ⟨[], enclosing⟩⟩

/-- The environment that encloses another one. -/
def enclosing? (h : Heap) (e : EnvId) : Option EnvId := h.envs[e]?.bind (·.enclosing)

/-- The value of a name in just this environment. -/
def lookup (h : Heap) (e : EnvId) (name : Bytes) : Option Value :=
  h.envs[e]?.bind (·.bindings.lookup name)

/-- Binds a name in just this environment, in place of its earlier binding if it has one. -/
def define (h : Heap) (e : EnvId) (name : Bytes) (v : Value) : Heap :=
  ⟨h.envs.modify e fun env ↦ { env with bindings := env.bindings.set name v }⟩

/-- An environment and those around it, from the inside out. -/
def chain (h : Heap) (e : EnvId) : List EnvId :=
  e :: match h.enclosing? e with
    | none => []
    | some p => if p < e then h.chain p else []
termination_by e

/-- The value of a name, searching outwards. -/
def get? (h : Heap) (e : EnvId) (name : Bytes) : Option Value :=
  (h.chain e).findSome? (h.lookup · name)

/-- The nearest environment that binds a name, searching outwards. -/
def owner? (h : Heap) (e : EnvId) (name : Bytes) : Option EnvId :=
  (h.chain e).find? fun t ↦ (h.lookup t name).isSome

/-- Changes the nearest binding of a name, searching outwards; nothing if there is none. -/
def assign? (h : Heap) (e : EnvId) (name : Bytes) (v : Value) : Option Heap :=
  (h.owner? e name).map (h.define · name v)

/-- The environment a number of steps outwards, if there are so many. -/
def ancestor? (h : Heap) : Nat → EnvId → Option EnvId
  | 0, e => some e
  | n + 1, e => (h.enclosing? e).bind (h.ancestor? n)

/-- The names bound in just this environment, in the order of their bytes. -/
def keys (h : Heap) (e : EnvId) : List Bytes :=
  ((h.envs[e]?.elim [] (·.bindings)).map (·.1)).mergeSort Bytes.le

/-- The bindings of just this environment, in braces and in the order of the names. -/
def text (h : Heap) (e : EnvId) : Bytes :=
  let entry (name : Bytes) : Bytes :=
    name ++ Bytes.ofString ": " ++ ((h.lookup e name).elim [] Value.display)
  [Bytes.ascii '{'] ++ Bytes.join (Bytes.ofString ", ") ((h.keys e).map entry) ++
    [Bytes.ascii '}']

end Heap
end Lox
