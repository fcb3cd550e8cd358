import Mathlib
import Spinel.Proofs.Grammar.Commands

/-!
# Programs one behind the other

A text that is a program, a line feed and another such text make a program: the commands of the
first followed by those of the second, which are moved to where they stand (`parse_append_line`).
-/

namespace Spinel.Grammar

/-- The program of the second text, read where it stands in the larger one. -/
theorem continues_first {source : SourceId} {text following : String} {b : List Node}
    (hb : (parse source (.ofText following)).1 = .program b) (m : Nat) :
    Continues (.first source text following) false (rules m)
      (b.map (Node.moved (.behind text))) := by
  intro span c d hP limit n
  obtain ⟨k, c', hc'⟩ := commandsAfter_of_parse hb
  have hbeside : (Embedding.behind source text following none).Beside false
      (.start source (.ofText following)) d := beside_behind hP (List.append_nil _).symm
  have hnone : Continues (.behind source text following none) false (rules m) [] := by
    intro span c d hpast
    cases hpast.behind.tail
  have hrules := rules_repeat (e := .behind source text following none) (k + 1) m
  have hmirrors := mirrors_commandsAfter hrules (fun _ => rfl) hnone
    (mirrors_commands hrules (fun _ => rfl) hnone k n) k limit
  refine (hmirrors _ d hbeside b c' hc').mono fun out _ hout => ?_
  rw [hout, List.append_nil]
  exact movedAll_eq_map _ b

/-- At each depth, the commands of a program, a line feed and a program are those of the two. -/
theorem yields_append_line {source : SourceId} {first second : String} {a b : List Node}
    (ha : (parse source (.ofText first)).1 = .program a)
    (hb : (parse source (.ofText second)).1 = .program b) (n : Nat) :
    Yields (commands (rules n) n) (.start source (.ofText (first ++ "\n" ++ second))) fun out _ =>
      out = a ++ b.map (Node.moved ⟨first.length + 1, first.toList.count '\n' + 1⟩) := by
  obtain ⟨c, hc⟩ := parse_eq_program.1 ha
  have hrules := rules_repeat (e := .first source first second) (bound first.toList.length) n
  have hmirrors := mirrors_commands hrules (fun h => by cases h) (continues_first hb n)
    (bound first.toList.length) n
  refine (hmirrors _ _ (beside_first source first second) a c hc).mono fun out _ hout => ?_
  rw [hout]
  exact congrArg (· ++ _) (movedAll_zero a)

/-- A program, a line feed and a program make a program, with all places of the second one moved by
the characters and the lines in front of it. -/
theorem parse_append_line {source : SourceId} {first second : String} {a b : List Node}
    (ha : (parse source (.ofText first)).1 = .program a)
    (hb : (parse source (.ofText second)).1 = .program b) :
    (parse source (.ofText (first ++ "\n" ++ second))).1 =
      .program (a ++ b.map (Node.moved ⟨first.length + 1, first.toList.count '\n' + 1⟩)) := by
  obtain ⟨nodes, c, hprogram, rfl⟩ := program_of_yields (yields_append_line ha hb _)
  exact parse_eq_program.2 ⟨c, hprogram⟩

theorem parse_commented :
    (parse ⟨"main", 0⟩ (.ofText "x = y # why\n")).1 = .program
      [⟨⟨⟨0, 0, 0⟩, 5⟩, .assign ⟨⟨⟨0, 0, 0⟩, 1⟩, .localVar "x"⟩
        ⟨⟨⟨4, 0, 4⟩, 1⟩, .localVar "y"⟩⟩] := by
  cbv

/-- A comment at the end of the first text, and a definition, whose site moves as well. -/
theorem parse_append_line_sample :
    (parse ⟨"main", 0⟩ (.ofText "x = y # why\n")).1 = .program
        [⟨⟨⟨0, 0, 0⟩, 5⟩, .assign ⟨⟨⟨0, 0, 0⟩, 1⟩, .localVar "x"⟩
          ⟨⟨⟨4, 0, 4⟩, 1⟩, .localVar "y"⟩⟩] ∧
      (parse ⟨"main", 0⟩ (.ofText "def f\n x\nend")).1 = .program
        [⟨⟨⟨0, 0, 0⟩, 12⟩, .define none
          ⟨⟨⟨"main", 0⟩, 0⟩, "f", {}, [⟨⟨⟨7, 1, 1⟩, 1⟩, .localVar "x"⟩]⟩⟩] ∧
      (parse ⟨"main", 0⟩ (.ofText ("x = y # why\n" ++ "\n" ++ "def f\n x\nend"))).1 = .program
        [⟨⟨⟨0, 0, 0⟩, 5⟩, .assign ⟨⟨⟨0, 0, 0⟩, 1⟩, .localVar "x"⟩ ⟨⟨⟨4, 0, 4⟩, 1⟩, .localVar "y"⟩⟩,
          ⟨⟨⟨13, 2, 0⟩, 12⟩, .define none
            ⟨⟨⟨"main", 0⟩, 13⟩, "f", {}, [⟨⟨⟨20, 3, 1⟩, 1⟩, .localVar "x"⟩]⟩⟩] := by
  have hsecond : (parse ⟨"main", 0⟩ (.ofText "def f\n x\nend")).1 = .program
      [⟨⟨⟨0, 0, 0⟩, 12⟩, .define none
        ⟨⟨⟨"main", 0⟩, 0⟩, "f", {}, [⟨⟨⟨7, 1, 1⟩, 1⟩, .localVar "x"⟩]⟩⟩] := by cbv
  exact ⟨parse_commented, hsecond, parse_append_line parse_commented hsecond⟩

end Spinel.Grammar
