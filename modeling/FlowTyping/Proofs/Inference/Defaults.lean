import FlowTyping.Proofs.Catalog.Supplied
import FlowTyping.Proofs.Inference.Failing

/-
  Parameters with defaults

  A definition can be called without arguments for its last parameters as far as
  these have defaults, and stands in its class table under one key for each number
  of arguments. Declarations that come later can take some of its keys over, so a
  key is bound to the last definition that has it (`definitionAt_defineAll_last`).

  What a call selects stands under a key of as many restrictions as there are
  arguments. So the parameters that get none have defaults, and no instance of it
  lacks an argument (`omitted_have_defaults`).
-/
namespace FlowTyping

open Catalog Steps

/-- A method has a key: the restrictions of the key are those of the method, except for some at the
end whose parameters and all behind have defaults, and both take a block or both do not. -/
def Method.Answers (m : Method) (key : MethodKey) : Prop :=
  key.yields = m.yields ∧ ∃ omitted : List (Option Restriction),
    omitted.length ≤ trailingDefaults m.parameters ∧
      key.restrictions ++ omitted = m.parameters.map (·.restriction)

/-- A method can be called with so many arguments. -/
structure Method.Admits (m : Method) (count : Nat) : Prop where
  least : m.parameters.length - trailingDefaults m.parameters ≤ count
  most : count ≤ m.parameters.length
  defaults : ∀ p ∈ m.parameters.drop count, p.fallback.isSome = true

namespace Catalog

variable {c : Catalog} {m : Method} {ms before after : List Method} {key : MethodKey}
  {k : ClassHandle} {name : String}

/-! ## The definition under a key -/

theorem mem_methodKeys_iff : key ∈ methodKeys m ↔ m.Answers key := by
  unfold methodKeys Method.Answers
  rw [List.mem_map]
  generalize m.parameters.map (·.restriction) = restrictions
  constructor
  · rintro ⟨cut, hcut, rfl⟩
    refine ⟨rfl, restrictions.drop (restrictions.length - cut), ?_, List.take_append_drop _ _⟩
    have hcut := List.mem_range.mp hcut
    rw [List.length_drop]
    omega
  · rintro ⟨hyields, omitted, homitted, hsplit⟩
    refine ⟨omitted.length, List.mem_range.mpr (Nat.lt_succ_of_le homitted), ?_⟩
    obtain ⟨keyRestrictions, yields⟩ := key
    dsimp only at hyields hsplit
    rw [← hsplit, hyields, List.length_append, Nat.add_sub_cancel, List.take_left]

/-- A key that none of the methods has keeps what it is bound to. -/
theorem definitionAt_defineAll_other
    (hother : ∀ m ∈ ms, c.Receives m k name → ¬ m.Answers key) :
    (c.defineAll ms).definitionAt k name key = c.definitionAt k name key := by
  induction ms generalizing c with
  | nil => rfl
  | cons m ms ih =>
    have hrest : ∀ n ∈ ms, (c.defineMethod m).2.Receives n k name → ¬ n.Answers key := fun n hn h =>
      hother n (List.mem_cons_of_mem _ hn) ((receives_congr (outline_defineMethod c m) n k name).mp h)
    refine (ih hrest).trans ?_
    rw [definitionAt_defineMethod]
    exact if_neg fun h => hother m List.mem_cons_self h.1 (mem_methodKeys_iff.mp h.2)

/-- A key is bound to the last one of the methods that has it. -/
theorem definitionAt_defineAll_last (hreceives : c.Receives m k name) (hanswers : m.Answers key)
    (hlast : ∀ n ∈ after, c.Receives n k name → ¬ n.Answers key) :
    (c.defineAll (before ++ m :: after)).definitionAt k name key =
      some ⟨c.methods.size + before.length⟩ := by
  induction before generalizing c with
  | nil =>
    have hafter : ∀ n ∈ after, (c.defineMethod m).2.Receives n k name → ¬ n.Answers key :=
      fun n hn h => hlast n hn ((receives_congr (outline_defineMethod c m) n k name).mp h)
    refine (definitionAt_defineAll_other hafter).trans ?_
    rw [definitionAt_defineMethod]
    exact if_pos ⟨hreceives, mem_methodKeys_iff.mpr hanswers⟩
  | cons n before ih =>
    have hsame := fun l => receives_congr (outline_defineMethod c n) l k name
    refine (ih ((hsame m).mpr hreceives) fun l hl h => hlast l hl ((hsame l).mp h)).trans ?_
    rw [size_methods_defineMethod, List.length_cons, Nat.add_assoc, Nat.add_comm 1]

theorem method_defineAll (c : Catalog) (before : List Method) (m : Method) (after : List Method) :
    (c.defineAll (before ++ m :: after)).method ⟨c.methods.size + before.length⟩ = m := by
  unfold method
  rw [methods_defineAll]
  simp

/-! ## What a call selects -/

theorem admits_of_mem_methodKeys (h : key ∈ methodKeys m) : m.Admits key.restrictions.length := by
  obtain ⟨-, omitted, homitted, hsplit⟩ := mem_methodKeys_iff.mp h
  have hlength := congrArg List.length hsplit
  rw [List.length_append, List.length_map] at hlength
  exact ⟨by omega, by omega, fallback_of_mem_methodKeys h⟩

/-- A call selects a definition that can be called with as many arguments. -/
theorem Indexed.admits (hc : c.Indexed) {owner : Ty} {q : Query} {id : MethodHandle}
    (h : c.select owner q = .ok id) : (c.method id).Admits q.arguments.length := by
  obtain ⟨t, -, hbest⟩ := (found_eq_ok_iff.mp h).exists_best
  obtain ⟨key, hkey, -, htakes⟩ := hbest.applicable
  obtain ⟨k, overloads, hoverloads, hentry⟩ := hkey.exists_overloadsAt
  exact htakes.length_eq ▸ admits_of_mem_methodKeys (hc.mem_methodKeys hoverloads hentry)

end Catalog

/-! ## Instances without an argument -/

theorem Options.Exceeded.not_missingArgument {options : Options} {e : TypingError}
    (h : options.Exceeded e) (name : String) : e ≠ .fault (.missingArgument name) := by
  cases h <;> exact fun h => by cases h

theorem Mistake.not_missingArgument {e : TypingError} (h : Mistake e) (name : String) :
    e ≠ .fault (.missingArgument name) := by
  cases h <;> exact fun h => by cases h

/-- No instance that a check types lacks an argument. -/
theorem origin_ne_missingArgument {program : Expr} {options : Options} {e : TypingError}
    (h : check program options = .error (.failed e)) (name : String) :
    e.origin ≠ .fault (.missingArgument name) := by
  rcases check_failed h with hmistake | ⟨t, hstopped⟩ | ⟨result, r, hsettles, hdefect⟩
  · rw [hmistake.origin_eq]
    exact hmistake.not_missingArgument name
  · cases (stoppedRun_explains hstopped).2 with
    | @refused e site frames hsite hrefuses hcontext =>
      obtain ⟨owner, arguments, -, hrefused⟩ := id hrefuses
      obtain ⟨problem, rfl, -⟩ := hrefused.located
      rw [TypingError.origin_within]
      exact fun heq => by cases heq
    | @mistaken e frames hmistake =>
      rw [TypingError.origin_within, hmistake.origin_eq]
      exact hmistake.not_missingArgument name
    | exceeded hexceeded =>
      rw [hexceeded.origin_eq]
      exact hexceeded.not_missingArgument name
  · obtain ⟨read, -, rfl⟩ := hsettles.sound.2.defect_finished hdefect
    exact fun heq => by cases heq

/-- A key is bound to the last method that was declared with it. What a call selects can be called
with as many arguments, each parameter without one has a default, and a check never fails because an
instance lacks an argument. -/
theorem omitted_have_defaults :
    (∀ (c : Catalog) (before : List Method) (m : Method) (after : List Method) (k : ClassHandle)
      (name : String) (key : MethodKey), c.Receives m k name → m.Answers key →
      (∀ n ∈ after, c.Receives n k name → ¬ n.Answers key) →
        (c.defineAll (before ++ m :: after)).definitionAt k name key =
            some ⟨c.methods.size + before.length⟩ ∧
          (c.defineAll (before ++ m :: after)).method ⟨c.methods.size + before.length⟩ = m) ∧
    (∀ (c : Catalog) (ms : List Method) (k : ClassHandle) (name : String) (key : MethodKey),
      (∀ m ∈ ms, c.Receives m k name → ¬ m.Answers key) →
        (c.defineAll ms).definitionAt k name key = c.definitionAt k name key) ∧
    (∀ s : Store, s.Started → ∀ owner q id, s.catalog.select owner q = .ok id →
      (s.catalog.method id).Admits q.arguments.length) ∧
    ∀ program options e, check program options = .error (.failed e) → ∀ name,
      e.origin ≠ .fault (.missingArgument name) := by
  refine ⟨fun c before m after k name key hreceives hanswers hlast => ?_, ?_, ?_, ?_⟩
  · exact ⟨definitionAt_defineAll_last hreceives hanswers hlast, method_defineAll c before m after⟩
  · exact fun c ms k name key => definitionAt_defineAll_other
  · exact fun s hs owner q id hid => hs.indexed.admits hid
  · exact fun program options e h name => origin_ne_missingArgument h name

/-- Two ways to show an integer, of which the second one takes over the key that the first one has
without a style. -/
def restyled : Catalog := printer.defineAll [shows .int (some .string), shows .int none]

theorem reached_restyled : restyled.Reached Plainly := by
  have hsize : printer.size = 38 :=
    (Contained.size_newObject _ _ _ _ _).trans (congrArg (· + 2) size_seeded)
  have hobject := knows_of_size (r := .object "Printer" (some .object) .main false) size_seeded
    (by decide)
  have hentered : ∀ m ∈ [shows .int (some .string), shows .int none],
      ∀ t ∈ (Request.method m).mentions, t.index < 38 := by decide
  exact (Reached.step .start _ (.object hobject)).defineAll Plainly.method fun m hm =>
    knows_of_size hsize (hentered m hm)

section
open Sample

/-- A call without an argument for a parameter with a default, which has no such method. -/
def unstyled : Expr := lines [
  .methodDef mark "show" false
    [⟨"value", none, none⟩, ⟨"style", none, some (.literal mark .nil)⟩]
    (send (var "style") "missing" []),
  run "show" [int]]

end

theorem unstyled_stops : (stoppedRun unstyled ⟨100, 5, 8, 5⟩).isSome = true := by decide +kernel

/-- Both keys are bound, and a call with one argument and one with two select a definition that can
be called so. A check that fails where a default is used does not lack an argument. -/
theorem omitted_have_defaults_restyled :
    restyled.definitionAt ⟨36⟩ "show" ⟨[some (.type .int)], false⟩ = some ⟨214⟩ ∧
    restyled.definitionAt ⟨36⟩ "show" ⟨[some (.type .int), some (.type .string)], false⟩ =
      some ⟨213⟩ ∧
    restyled.select ⟨36⟩ ⟨"show", [.int, .string], false, ⟨36⟩⟩ = .ok ⟨213⟩ ∧
    (restyled.method ⟨213⟩).Admits 2 ∧
    ∃ e, check unstyled ⟨100, 5, 8, 5⟩ = .error (.failed e) ∧
      ∀ name, e.origin ≠ .fault (.missingArgument name) := by
  obtain ⟨hsize, howner, hentered, hselect⟩ : printer.methods.size = 213 ∧
      printer.cls? ⟨36⟩ = some ⟨36⟩ ∧ 36 < printer.classes.size ∧
      restyled.select ⟨36⟩ ⟨"show", [.int, .string], false, ⟨36⟩⟩ = .ok ⟨213⟩ := by
    decide +kernel
  have hreceives : ∀ style, printer.Receives (shows .int style) ⟨36⟩ "show" :=
    fun style => ⟨howner, hentered, rfl⟩
  have hstarted := (reached_restyled.moved (fun _ _ h => h.2.1) 10).started
  obtain ⟨hbound, -, hadmits, hcheck⟩ := omitted_have_defaults
  have hselected : ∀ c, Store.Started ⟨c, .empty 10⟩ → ∀ q id, c.select ⟨36⟩ q = .ok id →
      (c.method id).Admits q.arguments.length := fun c hc => hadmits ⟨c, .empty 10⟩ hc ⟨36⟩
  refine ⟨?_, ?_, hselect, hselected restyled hstarted _ _ hselect, ?_⟩
  · have hshort := (hbound printer [shows .int (some .string)] (shows .int none) [] ⟨36⟩ "show"
      ⟨[some (.type .int)], false⟩ (hreceives none) ⟨rfl, [], Nat.zero_le _, rfl⟩ (by simp)).1
    rwa [hsize] at hshort
  · have hlong := (hbound printer [] (shows .int (some .string)) [shows .int none] ⟨36⟩ "show"
      ⟨[some (.type .int), some (.type .string)], false⟩ (hreceives (some .string))
      ⟨rfl, [], Nat.zero_le _, rfl⟩ (by
        rintro n hn - ⟨-, omitted, -, hsplit⟩
        obtain rfl := List.mem_singleton.mp hn
        cases hsplit)).1
    rwa [hsize] at hlong
  · obtain ⟨⟨e, t⟩, hstopped⟩ := Option.isSome_iff_exists.mp unstyled_stops
    exact ⟨e, check_of_stoppedRun hstopped, hcheck _ _ e (check_of_stoppedRun hstopped)⟩

end FlowTyping
