import Spinel.Heap.Classes

/-!
# Chains of scopes

Variables and constants are looked up in a scope and then in the ones around it. A scope is always
younger than the one around it, so no chain is longer than the number of scopes.
-/

namespace Spinel.Heap

/-- The scope and the ones around it, at most `n` of these. -/
def scopesWithin (h : Heap) : Nat → ScopeRef → List ScopeRef
  | 0, s => [s]
  | n + 1, s =>
    match (h.scope s).parent with
    | none => [s]
    | some p => s :: h.scopesWithin n p

/-- The scope and the ones around it, innermost first. -/
def scopeChain (h : Heap) (s : ScopeRef) : List ScopeRef := h.scopesWithin h.scopes.size s

def hasLocal (h : Heap) (s : ScopeRef) (name : String) : Bool := (h.scope s).locals.contains name

/-- The variable of a name in the nearest scope that has it. -/
def findLocal (h : Heap) (s : ScopeRef) (name : String) : Option Value :=
  (h.scopeChain s).findSome? fun k => (h.scope k).locals.get? name

/-- Set a variable of a scope itself. -/
def defineLocal (h : Heap) (s : ScopeRef) (name : String) (v : Value) : Heap :=
  h.modifyScope s fun k => { k with locals := k.locals.insert name v }

/-- The scope in which assignment to a name takes place: in a block the nearest one that has the
name, and the scope itself if there is none or it is no block. -/
def assignee (h : Heap) (s : ScopeRef) (name : String) : ScopeRef :=
  match (h.scope s).kind with
  | .plain => s
  | .block => ((h.scopeChain s).find? fun k => h.hasLocal k name).getD s

/-- Assign to a variable. -/
def assignLocal (h : Heap) (s : ScopeRef) (name : String) (v : Value) : Heap :=
  h.defineLocal (h.assignee s name) name v

/-- A constant as one scope sees it: among its variables, in its module and the ones around that, or
in the superclasses of its module. -/
def constantIn (h : Heap) (s : ScopeRef) (name : String) : Option Value :=
  (h.scope s).locals.get? name <|> (h.scope s).module.bind fun m =>
    ((h.enclosing m).findSome? fun k => (h.klass k).constants.get? name) <|>
      h.findConstant m name

/-- A constant as the innermost scope sees it that sees it at all. -/
def lookupConstant (h : Heap) (s : ScopeRef) (name : String) : Option Value :=
  (h.scopeChain s).findSome? fun k => h.constantIn k name

end Spinel.Heap
