import Lox.Proofs.Grammar.Jumps
import Lox.Proofs.Machine.Heredity

/-!
# Jumps are caught

A statement ends with a jump only if the jump is in it, where nothing in the statement
catches it. In a program without errors something always does: no statement of the
program ends with a jump, and no body of a function with one that only a loop could
catch.
-/

namespace Lox

/-! ### What a jump comes from -/

/-- Whether the jump that something ends with is exposed there; returns are, even in loops. -/
def Flow.From (exposed : Bool → Stmt → Prop) : Flow → Prop
  | .normal => True
  | .break => exposed false .break
  | .continue => exposed false .continue
  | .return _ => ∃ value, exposed true (.return value)

/-- A jump comes from more places if more are allowed. -/
theorem Flow.From.mono {E E' : Bool → Stmt → Prop} {flow : Flow} (hflow : flow.From E)
    (h : ∀ loops jump, E loops jump → E' loops jump) : flow.From E' := by
  cases flow with
  | normal => trivial
  | «break» | «continue» => exact h _ _ hflow
  | «return» => exact hflow.imp fun value => h _ _

namespace Task

/-- Whether the jump that a task ends with is exposed in it. -/
def EndsAsExposed : (t : Task) → t.Result → Prop
  | .statement s, flow => flow.From fun loops jump => jump.ExposedIn loops s
  | .statements ss, flow => flow.From fun loops jump => ∃ s ∈ ss, jump.ExposedIn loops s
  | .loop condition body, flow =>
    flow.From fun loops jump => jump.ExposedIn loops (.while condition body)
  | .expression _, _ | .expressions _, _ | .call _ _ _, _ => True

end Task

/-- All tasks, on all machines, end with jumps that are exposed in them. -/
def exposure : Contract := ⟨fun _ => True, fun _ => True, Task.EndsAsExposed⟩

namespace Script

variable {Q : α → Prop}

/-- A step exposes no jump. -/
private theorem exposure_step {s : Step} {next : s.Result → Script α}
    (h : ∀ a, (next a).Keeps exposure Q) : (step s next).Keeps exposure Q :=
  fun _ _ => ⟨trivial, fun a _ _ => h a⟩

/-- A part exposes the jumps with which its task may end. -/
private theorem exposure_part {place : Place} {t : Task} {next : t.Result → Script α}
    (h : ∀ a, t.EndsAsExposed a → (next a).Keeps exposure Q) :
    (part place t next).Keeps exposure Q :=
  ⟨trivial, h⟩

/-- What runs no statement has nothing to show. -/
private theorem exposure_of_true (script : Script α) : script.Keeps exposure fun _ => True := by
  induction script with
  | done a => trivial
  | step s next ih => exact exposure_step ih
  | part place t next ih => exact exposure_part fun a _ => ih a

/-- The declaration of a function exposes no jump. -/
private theorem exposure_ofFunction (declaration : FunctionDecl) (E : Bool → Stmt → Prop) :
    (ofFunction declaration).Keeps exposure (Flow.From E) := by
  unfold ofFunction
  cases declaration.name with
  | none => trivial
  | some name => exact exposure_step fun _ => exposure_step fun _ => trivial

/-- A statement ends with a jump that is exposed in it. -/
private theorem exposure_ofStatement (s : Stmt) :
    (ofStatement s).Keeps exposure (Flow.From fun loops jump => jump.ExposedIn loops s) := by
  cases s with
  | block statements =>
    refine Script.keeps_whole trivial fun flow hflow => ?_
    refine Flow.From.mono (E := fun loops jump => ∃ s ∈ statements, jump.ExposedIn loops s) hflow ?_
    rintro loops jump ⟨s, hs, h⟩
    exact .block hs h
  | expression value => exact exposure_part fun _ _ => trivial
  | var name initializer =>
    cases initializer with
    | none => exact exposure_step fun _ => trivial
    | some value => exact exposure_part fun _ _ => exposure_step fun _ => trivial
  | ifElse condition thenBranch elseBranch =>
    refine exposure_part fun value _ => ?_
    split
    · refine Script.keeps_whole trivial fun flow hflow => ?_
      exact Flow.From.mono (E := fun loops jump => jump.ExposedIn loops thenBranch) hflow
        fun _ _ => .thenBranch
    · cases elseBranch with
      | none => trivial
      | some elseBranch =>
        refine Script.keeps_whole trivial fun flow hflow => ?_
        exact Flow.From.mono (E := fun loops jump => jump.ExposedIn loops elseBranch) hflow
          fun _ _ => .elseBranch
  | «while» condition body => exact exposure_part fun _ h => h
  | «break» => exact .self
  | «continue» => exact .self
  | function declaration => exact exposure_ofFunction declaration _
  | «return» value =>
    cases value with
    | none => exact ⟨none, .self⟩
    | some value => exact exposure_part fun _ _ => ⟨some value, .self⟩
  | empty => trivial

private theorem exposure_ofStatements (ss : List Stmt) :
    (ofStatements ss).Keeps exposure
      (Flow.From fun loops jump => ∃ s ∈ ss, jump.ExposedIn loops s) := by
  cases ss with
  | nil => trivial
  | cons s rest =>
    refine exposure_part fun flow hflow => ?_
    have first : flow.From fun loops jump => ∃ s' ∈ s :: rest, jump.ExposedIn loops s' :=
      Flow.From.mono (E := fun loops jump => jump.ExposedIn loops s) hflow
        fun _ _ h => ⟨s, List.mem_cons_self, h⟩
    cases flow with
    | normal =>
      refine Script.keeps_whole trivial fun flow hflow => ?_
      refine Flow.From.mono (E := fun loops jump => ∃ s' ∈ rest, jump.ExposedIn loops s') hflow ?_
      rintro loops jump ⟨s', hs', h⟩
      exact ⟨s', List.mem_cons_of_mem s hs', h⟩
    | _ => exact first

/-- A loop catches the breaks and continues of its body, but not its returns. -/
private theorem exposure_ofLoop (condition : Expr) (body : Stmt) :
    (ofLoop condition body).Keeps exposure
      (Flow.From fun loops jump => jump.ExposedIn loops (.while condition body)) := by
  refine exposure_part fun value _ => ?_
  split
  · refine exposure_part fun flow hflow => ?_
    cases flow with
    | normal | «continue» => exact exposure_part fun _ h => h
    | «break» => trivial
    | «return» value =>
      obtain ⟨value', h⟩ := hflow
      exact ⟨value', .while rfl h⟩
  · trivial

end Script

/-- Every task ends as its tree exposes. -/
theorem sound_exposure : exposure.Sound where
  entered _ _ _ := trivial
  left _ _ _ _ _ := trivial
  script t _ := by
    cases t with
    | statement s => exact Script.exposure_ofStatement s
    | statements ss => exact Script.exposure_ofStatements ss
    | loop condition body => exact Script.exposure_ofLoop condition body
    | _ => exact Script.exposure_of_true _

/-- A statement ends with jumps that are exposed in it. -/
theorem from_of_execute {fuel : Nat} {s : Stmt} {m n : Machine} {flow : Flow}
    (h : execute fuel s m = .ok flow n) :
    flow.From fun loops jump => jump.ExposedIn loops s :=
  (sound_exposure.kept fuel (t := .statement s) trivial trivial).gives flow n h

/-- So do statements in a row. -/
theorem from_of_executeAll {fuel : Nat} {ss : List Stmt} {m n : Machine} {flow : Flow}
    (h : executeAll fuel ss m = .ok flow n) :
    flow.From fun loops jump => ∃ s ∈ ss, jump.ExposedIn loops s :=
  (sound_exposure.kept fuel (t := .statements ss) trivial trivial).gives flow n h

/-! ### Programs without errors -/

/-- Where jumps stand in what they jump out of, they do in every tree inside. -/
theorem hereditary_jumpsFit :
    Hereditary (fun s => ∃ c, s.JumpsFit c) Expr.JumpsFit FunctionDecl.JumpsFit where
  block h s hs := ⟨_, Stmt.AllJumpFit.mem h.choose_spec s hs⟩
  expression h := h.choose_spec
  var h := h.choose_spec
  ifElse {_ _ elseBranch} h := by
    obtain ⟨c, h⟩ := h
    cases elseBranch with
    | none => exact ⟨h.1, ⟨c, h.2⟩, fun s hs => absurd hs (Option.not_mem_none s)⟩
    | some elseBranch =>
      refine ⟨h.1, ⟨c, h.2.1⟩, ?_⟩
      rintro _ ⟨⟩
      exact ⟨c, h.2.2⟩
  loop h := ⟨h.choose_spec.1, _, h.choose_spec.2⟩
  function h := h.choose_spec
  returned h := h.choose_spec.2
  assign h := h
  binary h := h
  logical h := h
  grouping h := h
  unary h := h
  call h := ⟨h.1, Expr.AllJumpsFit.mem h.2⟩
  lambda h := h
  body h s hs := ⟨_, Stmt.AllJumpFit.mem h.body s hs⟩

/-- Whether no jump is dropped in the run of a program: each of its statements that ends does so
normally, and the body of each function that is called normally or with a return. -/
structure Machine.CatchesJumps (fuel : Nat) (statements : List Stmt) (m : Machine) : Prop where
  normally : ∀ before s after, statements = before ++ s :: after →
    ∀ n, Lox.interpret fuel before m = .ok () n →
      ∀ flow o, execute fuel s n = .ok flow o → flow = .normal
  bodies : ∀ p ∈ programTrace fuel statements m, ∀ f closure arguments paren,
    p.act = .task (.call (.function f closure) arguments paren) →
      ∀ fuel flow n,
        withCallScope f closure arguments (executeAll fuel f.body) p.machine = .ok flow n →
          flow = .normal ∨ ∃ value, flow = .return value

/-- Outside loops and functions a statement ends normally. -/
theorem eq_normal_of_jumpsFit {fuel : Nat} {s : Stmt} (hs : s.JumpsFit .top) {m n : Machine}
    {flow : Flow} (h : execute fuel s m = .ok flow n) : flow = .normal := by
  have hflow := from_of_execute h
  cases flow with
  | normal => rfl
  | «break» => exact absurd hflow (hs.not_exposedIn rfl (.inl rfl))
  | «continue» => exact absurd hflow (hs.not_exposedIn rfl (.inr rfl))
  | «return» =>
    obtain ⟨value, hreturn⟩ := hflow
    exact absurd hreturn (hs.not_exposedIn_return rfl value)

/-- The body of a function ends normally or with a return. -/
theorem ends_of_jumpsFit {fuel : Nat} {f : FunctionDecl} (hf : f.JumpsFit) {m n : Machine}
    {flow : Flow} (h : executeAll fuel f.body m = .ok flow n) :
    flow = .normal ∨ ∃ value, flow = .return value := by
  have hflow := from_of_executeAll h
  cases flow with
  | normal => exact .inl rfl
  | «break» =>
    obtain ⟨s, hs, hbreak⟩ := hflow
    exact absurd hbreak ((Stmt.AllJumpFit.mem hf.body s hs).not_exposedIn rfl (.inl rfl))
  | «continue» =>
    obtain ⟨s, hs, hcontinue⟩ := hflow
    exact absurd hcontinue ((Stmt.AllJumpFit.mem hf.body s hs).not_exposedIn rfl (.inr rfl))
  | «return» value => exact .inr ⟨value, rfl⟩

/-- Where jumps are where they belong no program ends with one. -/
theorem catchesJumps_of_jumpsFit (fuel : Nat) {statements : List Stmt}
    (hss : Stmt.AllJumpFit .top statements) {m : Machine}
    (hm : m.store.FunctionsAre FunctionDecl.JumpsFit) : m.CatchesJumps fuel statements where
  normally before s after heq n _ flow o h := by
    have hs : s ∈ statements := heq ▸ List.mem_append_right before List.mem_cons_self
    exact eq_normal_of_jumpsFit (hss.mem s hs) h
  bodies p hp f closure arguments paren hact fuel' flow n h := by
    have kept := hereditary_jumpsFit.sound.kept_program fuel
      (fun s hs => ⟨_, hss.mem s hs⟩) hm
    have hf : f.JumpsFit := (kept.moments p hp).covers _ hact
    have body := Place.run_apply (.call f closure arguments) (executeAll fuel' f.body) p.machine
    rw [Place.run, h] at body
    cases hr : executeAll fuel' f.body ((Place.call f closure arguments).entered p.machine) with
    | error e o => simp [hr, Outcome.onMachine] at body
    | ok flow' o =>
      rw [hr] at body
      exact (EStateM.Result.ok.inj body).1 ▸ ends_of_jumpsFit hf hr

/-- No jump leaks. A statement ends with a break or a continue only if one is in it that no loop and
no function there encloses, and with a return only if one is in it that no function there encloses;
so a loop ends with neither of the first two, and a call gives a value or an error. In the run of a
source text without errors, after any other texts, no jump is dropped. -/
theorem jumps_caught :
    (∀ fuel s m n,
      (execute fuel s m = .ok .break n → Stmt.break.ExposedIn false s) ∧
      (execute fuel s m = .ok .continue n → Stmt.continue.ExposedIn false s) ∧
      ∀ v, execute fuel s m = .ok (.return v) n → ∃ value, (Stmt.return value).ExposedIn true s) ∧
    (∀ fuel condition body m flow n, execute fuel (.while condition body) m = .ok flow n →
      flow ≠ .break ∧ flow ≠ .continue) ∧
    (∀ fuel function paren arguments m,
      (∃ value n, evaluate fuel (.call function paren arguments) m = .ok value n) ∨
      (∃ e n, evaluate fuel (.call function paren arguments) m = .error (.error e) n) ∨
      ∃ n, evaluate fuel (.call function paren arguments) m = .error .outOfFuel n) ∧
    ∀ sink clock fuel earlier ds m source,
      (Machine.initial sink clock).runAll fuel earlier = some (ds, m) →
      (Grammar.parseSource source).errors = [] →
      ∀ fuel, m.CatchesJumps fuel (Grammar.parseSource source).statements := by
  refine ⟨fun fuel s m n => ⟨?_, ?_, ?_⟩, ?_, ?_, ?_⟩
  · exact fun h => from_of_execute h
  · exact fun h => from_of_execute h
  · exact fun v h => from_of_execute h
  · intro fuel condition body m flow n h
    have hflow := from_of_execute h
    constructor <;> rintro rfl <;> cases hflow <;> contradiction
  · intro fuel function paren arguments m
    cases evaluate fuel (.call function paren arguments) m with
    | ok value n => exact .inl ⟨value, n, rfl⟩
    | error e n =>
      cases e with
      | error e => exact .inr (.inl ⟨e, n, rfl⟩)
      | outOfFuel => exact .inr (.inr ⟨n, rfl⟩)
  · intro sink clock fuel earlier ds m source hearlier clean fuel'
    have parsed (source : String) (clean : (Grammar.parseSource source).errors = []) :
        Stmt.AllJumpFit .top (Grammar.parseSource source).statements :=
      (Grammar.derives_parseSource clean).jumpsFit rfl
    have hm := hereditary_jumpsFit.functionsAre_runAll
      (fun source clean s hs => ⟨_, (parsed source clean).mem s hs⟩) hearlier
    exact catchesJumps_of_jumpsFit fuel' (parsed source clean) hm

/-- In a block each jump is exposed; a loop around it catches all but the return. A function that
has been declared with a loop in it is called in a loop. -/
theorem jumps_caught_blocks :
    let m := Machine.initial .unlimited id
    let loop (jump : Stmt) : Stmt := .while (.literal (.bool true)) (.block [jump])
    (∃ n, execute 4 (.block [.break]) m = .ok .break n ∧
      Stmt.break.ExposedIn false (.block [.break])) ∧
    (∃ n, execute 4 (.block [.continue]) m = .ok .continue n ∧
      Stmt.continue.ExposedIn false (.block [.continue])) ∧
    (∃ n, execute 6 (loop (.return none)) m = .ok (.return .nil) n ∧
      ∃ value, (Stmt.return value).ExposedIn true (loop (.return none))) ∧
    (∃ flow n, execute 6 (loop .break) m = .ok flow n ∧ flow ≠ .break ∧ flow ≠ .continue) ∧
    ∃ h : (m.runAll 30 ["fun f() { while (true) { return 1; } }"]).isSome,
      (Grammar.parseSource "while (true) { f(); break; }").errors = [] ∧
      (Option.get _ h).2.CatchesJumps 30
        (Grammar.parseSource "while (true) { f(); break; }").statements := by
  have clean : (Grammar.parseSource "while (true) { f(); break; }").errors = [] :=
    List.isEmpty_iff.mp (by decide +kernel)
  refine ⟨⟨_, rfl, ?_⟩, ⟨_, rfl, ?_⟩, ⟨_, rfl, ?_⟩, ⟨_, _, rfl, ?_⟩, by decide +kernel, clean, ?_⟩
  · exact (jumps_caught.1 4 (.block [.break]) (.initial .unlimited id) _).1 rfl
  · exact (jumps_caught.1 4 (.block [.continue]) (.initial .unlimited id) _).2.1 rfl
  · exact (jumps_caught.1 6 _ (.initial .unlimited id) _).2.2 .nil rfl
  · exact jumps_caught.2.1 6 (.literal (.bool true)) (.block [.break])
      (.initial .unlimited id) _ _ rfl
  · exact jumps_caught.2.2.2 .unlimited id 30 _ _ _ _ (Option.some_get _).symm clean 30

end Lox
