import Spinel.Failure

/-!
# Finding sources

How `require` finds the text of a path: by a function, in a table of texts, in several places in
turn, or in a directory of files. These fail in one way, for a path that cannot be loaded
(`failsToLoad_calling`). A host may have its own way to find texts, which fails for other causes.
-/

namespace Spinel

/-- The text of a path, or why there is none. The answer may depend on the paths that were asked for
before, the last one first. -/
abbrev Resolver := (asked : List String) → (path : String) → Except Failure String

namespace Resolver

/-- Whatever is not found cannot be loaded, and there is no more to say about it. -/
def FailsToLoad (r : Resolver) : Prop :=
  ∀ asked path f, r asked path = .error f → f = { fault := .cannotLoad path }

/-- The texts that a function finds. -/
def calling (f : (asked : List String) → (path : String) → Option String) : Resolver :=
  fun asked path =>
    match f asked path with
    | some code => .ok code
    | Option.none => .error { fault := .cannotLoad path }

theorem failsToLoad_calling (f : List String → String → Option String) :
    (calling f).FailsToLoad := by
  intro asked path failure h
  unfold calling at h
  split at h
  · cases h
  · cases h
    rfl

/-- Nothing is found. -/
def none : Resolver := calling fun _ _ => Option.none

theorem failsToLoad_none : none.FailsToLoad := failsToLoad_calling _

/-- The texts of a table. -/
def ofTable (files : List (String × String)) : Resolver := calling fun _ path => files.lookup path

/-- Several resolvers, asked in order. -/
def firstOf (resolvers : List Resolver) : Resolver := calling fun asked path =>
  resolvers.findSome? fun r => (r asked path).toOption

/-! ## Directories -/

/-- The steps of a path, without those that stay where they are. -/
def steps (path : String) : List String :=
  ((path.splitOn "/").filter fun s => s ≠ "" && s ≠ ".")

/-- Whether a file name has an extension: a point that is not its first character. -/
def hasExtension (name : String) : Bool := (name.toList.drop 1).contains '.'

/-- A file name without an extension gets that of programs. -/
def withExtension (name : String) : String := if hasExtension name then name else name ++ ".rb"

/-- A path ends in a slash or a step that stays there, so it can only name a directory. -/
def namesDirectory (path : String) : Bool :=
  match (path.splitOn "/").getLast? with
  | some last => last = "" || last = "."
  | Option.none => true

/-- Whether a file lies below a place, both given by their steps. -/
def liesBelow (place : List String) (file : String × String) : Bool :=
  place.isPrefixOf (steps file.1) && place.length < (steps file.1).length

/-- Follow steps from a place, backwards, to a file. Every directory on the way has to be there, and
none may be above the first. -/
def follow (files : List (String × String)) (place : List String) : List String → Option String
  | [] => Option.none
  | [name] =>
    if name = ".." then Option.none
    else (files.find? fun f => steps f.1 = (withExtension name :: place).reverse).map (·.2)
  | name :: rest =>
    if name = ".." then
      match place with
      | [] => Option.none
      | _ :: place => follow files place rest
    else if files.any (liesBelow (name :: place).reverse) then follow files (name :: place) rest
    else Option.none

/-- The files of a directory, given by their paths from there. -/
def directory (files : List (String × String)) : Resolver := calling fun _ path =>
  if path.startsWith "/" then Option.none
  else
    let parts := steps path
    if namesDirectory path && parts.getLast?.any hasExtension then Option.none
    else follow files [] parts

end Resolver

end Spinel
