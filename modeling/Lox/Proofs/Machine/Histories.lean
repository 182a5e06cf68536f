import Lox.Proofs.Machine.Frame
import Lox.Proofs.Machine.Traces

/-!
# The history of a session

A session runs source texts one after another on one machine. Its trace goes on from text
to text; a text with an error in it adds nothing to it. A contract that holds of the runs of
programs holds of all moments of a session, and what is reported about one of its texts is
reported about a run of it on the machine that the texts before it have left behind.
-/

namespace Lox

open Grammar

namespace Machine

/-- The moments of a source text. It is not run with an error in it. -/
def sourceTrace (fuel : Nat) (source : String) (m : Machine) : List Moment :=
  if (parseSource source).errors.isEmpty then programTrace fuel (parseSource source).statements m
  else []

/-- The machine that a source text leaves behind, however its run ends. -/
def afterSource (fuel : Nat) (source : String) (m : Machine) : Machine :=
  if (parseSource source).errors.isEmpty then
    (Lox.interpret fuel (parseSource source).statements).after m
  else m

/-- The moments of source texts that are run one after another, up to one for which the fuel does
not last. -/
def sessionTrace (fuel : Nat) : List String → Machine → List Moment
  | [], _ => []
  | source :: rest, m =>
    sourceTrace fuel source m ++
      match m.run fuel source with
      | some (_, n) => sessionTrace fuel rest n
      | none => []

section

variable {fuel : Nat} {m n : Machine}

/-- What is reported about a source text: its errors, if there are any, or else the error that has
ended its run. -/
theorem run_eq_some {source : String} {d : Diagnostics} (h : m.run fuel source = some (d, n)) :
    n = m.afterSource fuel source ∧ d.syntaxErrors = (parseSource source).errors ∧
      ∀ e, d.runtimeError = some e → (parseSource source).errors = [] ∧
        Lox.interpret fuel (parseSource source).statements m = .error (.error e) n := by
  simp only [run, runParse, interpret] at h
  unfold afterSource
  split at h
  · next clean =>
    rw [if_pos clean, List.isEmpty_iff.mp clean, Run.after]
    cases hr : Lox.interpret fuel (parseSource source).statements m with
    | ok _ k =>
      rw [hr] at h
      cases h
      exact ⟨rfl, rfl, fun _ he => absurd he (Option.not_mem_none _)⟩
    | error halt k =>
      rw [hr] at h
      cases halt with
      | outOfFuel => contradiction
      | error e =>
        cases h
        exact ⟨rfl, rfl, fun _ he => Option.some.inj he ▸ ⟨rfl, rfl⟩⟩
  · next wrong =>
    cases h
    rw [if_neg wrong]
    exact ⟨rfl, rfl, fun _ he => absurd he (Option.not_mem_none _)⟩

/-- Source texts are run one after another: the first one, and the others on the machine that it has
left behind. -/
theorem runAll_cons_eq_some {source : String} {rest : List String} {ds : List Diagnostics} :
    m.runAll fuel (source :: rest) = some (ds, n) ↔
      ∃ d k later, m.run fuel source = some (d, k) ∧ k.runAll fuel rest = some (later, n) ∧
        ds = d :: later := by
  simp only [runAll, Option.bind_eq_bind, Option.bind_eq_some_iff, Option.pure_def,
    Option.some.injEq, Prod.mk.injEq, Prod.exists]
  constructor
  · rintro ⟨d, k, hfirst, later, k', hrest, rfl, rfl⟩
    exact ⟨d, k, later, hfirst, hrest, rfl⟩
  · rintro ⟨d, k, later, hfirst, hrest, rfl⟩
    exact ⟨d, k, hfirst, later, n, hrest, rfl, rfl⟩

/-- What is reported about one text of a session is what its run gives after the texts before it. -/
theorem runAll_getElem? {sources : List String} {ds : List Diagnostics}
    (h : m.runAll fuel sources = some (ds, n)) {i : Nat} {d : Diagnostics} (hd : ds[i]? = some d) :
    ∃ source earlier k k', sources[i]? = some source ∧
      m.runAll fuel (sources.take i) = some (earlier, k) ∧ k.run fuel source = some (d, k') := by
  induction sources generalizing m ds i with
  | nil =>
    cases h
    contradiction
  | cons source rest ih =>
    obtain ⟨first, k, later, hfirst, hrest, rfl⟩ := runAll_cons_eq_some.mp h
    cases i with
    | zero =>
      cases hd
      exact ⟨source, [], m, k, rfl, rfl, hfirst⟩
    | succ i =>
      obtain ⟨next, earlier, k', k'', hnext, hearlier, hrun⟩ := ih hrest hd
      exact ⟨next, first :: earlier, k', k'', hnext,
        runAll_cons_eq_some.mpr ⟨first, k, earlier, hfirst, hearlier, rfl⟩, hrun⟩

end

end Machine

namespace Contract

open Machine

variable {C : Contract} (sound : C.Sound) (fuel : Nat)
include sound

/-- A source text keeps to a sound contract that covers its statements. -/
theorem Sound.kept_source {source : String} {m : Machine}
    (covered : (parseSource source).errors = [] →
      ∀ s ∈ (parseSource source).statements, C.covers (.statement s)) (hm : C.invariant m) :
    (∀ p ∈ sourceTrace fuel source m, C.Allows p) ∧ C.invariant (m.afterSource fuel source) := by
  unfold sourceTrace afterSource
  by_cases clean : (parseSource source).errors.isEmpty
  · have kept := sound.kept_program fuel (covered (List.isEmpty_iff.mp clean)) hm
    rw [if_pos clean, if_pos clean]
    exact ⟨kept.moments, kept.invariant⟩
  · rw [if_neg clean, if_neg clean]
    exact ⟨List.forall_mem_nil _, hm⟩

/-- So does a session of such texts. -/
theorem Sound.kept_session {sources : List String} {m : Machine}
    (covered : ∀ source ∈ sources, (parseSource source).errors = [] →
      ∀ s ∈ (parseSource source).statements, C.covers (.statement s)) (hm : C.invariant m) :
    (∀ p ∈ sessionTrace fuel sources m, C.Allows p) ∧
      ∀ ds n, m.runAll fuel sources = some (ds, n) → C.invariant n := by
  induction sources generalizing m with
  | nil =>
    refine ⟨List.forall_mem_nil _, fun ds n h => ?_⟩
    cases h
    exact hm
  | cons source rest ih =>
    obtain ⟨hsource, hrest⟩ := List.forall_mem_cons.mp covered
    obtain ⟨moments, ends⟩ := sound.kept_source fuel hsource hm
    constructor
    · rw [sessionTrace, List.forall_mem_append]
      refine ⟨moments, ?_⟩
      cases hr : m.run fuel source with
      | none => exact List.forall_mem_nil _
      | some r => exact (ih hrest ((run_eq_some hr).1 ▸ ends)).1
    · intro ds n h
      obtain ⟨d, k, later, hfirst, hlater, -⟩ := runAll_cons_eq_some.mp h
      exact (ih hrest ((run_eq_some hfirst).1 ▸ ends)).2 later n hlater

end Contract

end Lox
