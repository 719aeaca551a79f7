import FlowOpt.Pass.Basic
import FlowOpt.Proofs.Hoist.Rejoin

/-!
# What a failing pass leaves behind

A function is written once static single assignment form is built, and after each round of
hoisting. What a round writes names only labels that stand in it if what it read did so, and then
the next round succeeds. So a pass that fails has written nothing, unless the code names what stands
in front of its first label: a preheader can take that name away.
-/

namespace FlowOpt

variable {names : HoistNames} {instrs : List Instruction} {o : HoistOutcome} {f : Function}
  {r : PassRun} {rounds : Nat} {e : Error}

def PassRun.hoisted (r : PassRun) (o : HoistOutcome) : PassRun :=
  ⟨{ r.function with instrs := Block.flatten o.blocks }, r.events ++ o.events r.function.name,
    .ok true⟩

/-- A round fails, or it is the last since nothing moves, or others follow on what it writes. -/
theorem hoistRounds_cases (names : HoistNames) (rounds : Nat) (r : PassRun) :
    (∃ e, (Block.split r.function.instrs >>= Block.hoist names) = .error e ∧
      hoistRounds names (rounds + 1) r = { r with result := .error e }) ∨
    ∃ o, HoistsTo names r.function.instrs o ∧
      ((o.changed = false ∧ hoistRounds names (rounds + 1) r =
          { r with events := r.events ++ o.events r.function.name }) ∨
        (o.changed = true ∧
          hoistRounds names (rounds + 1) r = hoistRounds names rounds (r.hoisted o))) := by
  rw [hoistRounds]
  cases ho : Block.split r.function.instrs >>= Block.hoist names with
  | error e => exact .inl ⟨e, rfl, rfl⟩
  | ok o =>
    refine .inr ⟨o, HoistsTo.iff_eq_ok.2 ho, ?_⟩
    cases hchanged : o.changed with
    | false => exact .inl ⟨rfl, by simp [hchanged]⟩
    | true => exact .inr ⟨rfl, by simp [hchanged, PassRun.hoisted]⟩

/-- What holds as long as something moves, and what follows from it when rounds end. -/
theorem hoistRounds_induction {I Q : PassRun → Prop} (hend : ∀ r, I r → Q r)
    (hfail : ∀ r e, I r → (Block.split r.function.instrs >>= Block.hoist names) = .error e →
      Q { r with result := .error e })
    (hlast : ∀ r o, I r → HoistsTo names r.function.instrs o → o.changed = false →
      Q { r with events := r.events ++ o.events r.function.name })
    (hmoved : ∀ r o, I r → HoistsTo names r.function.instrs o → o.changed = true →
      I (r.hoisted o))
    (h : I r) : Q (hoistRounds names rounds r) := by
  induction rounds generalizing r with
  | zero => exact hend r h
  | succ rounds ih =>
    rcases hoistRounds_cases names rounds r with
      ⟨e, he, hround⟩ | ⟨o, ho, ⟨hsame, hround⟩ | ⟨hchanged, hround⟩⟩
    · exact hround ▸ hfail r e h he
    · exact hround ▸ hlast r o h ho hsame
    · exact hround ▸ ih (hmoved r o h ho hchanged)

/-- Rounds on code that names only labels it has succeed, and leave such code. -/
theorem hoistRounds_of_closed (names : HoistNames) (rounds : Nat)
    (h : Block.Closed r.function.instrs) (hok : ∃ changed, r.result = .ok changed) :
    Block.Closed (hoistRounds names rounds r).function.instrs ∧
      ∃ changed, (hoistRounds names rounds r).result = .ok changed := by
  let I (r : PassRun) := Block.Closed r.function.instrs ∧ ∃ changed, r.result = .ok changed
  refine hoistRounds_induction (I := I) (Q := I) (fun _ h => h) ?_ (fun _ _ h _ _ => h) ?_ ⟨h, hok⟩
  · intro r e h he
    obtain ⟨o, ho⟩ := HoistsTo.of_closed names h.1
    rw [HoistsTo.iff_eq_ok.1 ho] at he
    cases he
  · exact fun r o h ho _ => ⟨(ho.rejoin h.1).2, true, rfl⟩

theorem licm_run (names : HoistNames) (rounds : Nat) (f : Function) :
    (Pass.licm names rounds).run f =
      hoistRounds names (rounds - 1 + 1) ⟨f, [], .ok false⟩ := by
  have hrounds : max rounds 1 = rounds - 1 + 1 := by omega
  rw [← hrounds]
  rfl

theorem licm_cases (names : HoistNames) (rounds : Nat) (f : Function) :
    ((Pass.licm names rounds).run f).function = f ∨
      ∃ o, HoistsTo names f.instrs o ∧ o.changed = true ∧
        (Pass.licm names rounds).run f =
          hoistRounds names (rounds - 1) (PassRun.hoisted ⟨f, [], .ok false⟩ o) := by
  rw [licm_run]
  rcases hoistRounds_cases names (rounds - 1) ⟨f, [], .ok false⟩ with
    ⟨e, -, he⟩ | ⟨o, ho, ⟨-, hsame⟩ | ⟨hchanged, hmore⟩⟩
  · exact .inl (by rw [he])
  · exact .inl (by rw [hsame])
  · exact .inr ⟨o, ho, hchanged, hmore⟩

theorem ssa_unchanged_of_error {undefined entry : String}
    (h : ((Pass.ssa undefined entry).run f).result = .error e) :
    ((Pass.ssa undefined entry).run f).function = f := by
  unfold Pass.ssa at h ⊢
  simp only at h ⊢
  split at h
  · rfl
  · cases h

theorem licm_unchanged_of_error
    (hfront : rounds ≤ 1 ∨ Block.FrontUnnamed f.instrs)
    (h : ((Pass.licm names rounds).run f).result = .error e) :
    ((Pass.licm names rounds).run f).function = f := by
  rcases licm_cases names rounds f with hsame | ⟨o, ho, -, hrun⟩
  · exact hsame
  · exfalso
    have hok : ∃ changed, ((Pass.licm names rounds).run f).result = .ok changed := by
      rw [hrun]
      rcases hfront with hone | hfront
      · rw [Nat.sub_eq_zero_of_le hone]
        exact ⟨true, rfl⟩
      · exact (hoistRounds_of_closed names _ (ho.rejoin (ho.closed hfront)).2 ⟨true, rfl⟩).2
    obtain ⟨changed, hok⟩ := hok
    rw [hok] at h
    cases h

/-- A pass that fails leaves the function as it was. Of hoisting in several rounds that holds where
no jump names what stands in front of the first label. -/
theorem Pass.unchanged_of_error (f : Function) :
    (∀ undefined entry e, ((Pass.ssa undefined entry).run f).result = .error e →
      ((Pass.ssa undefined entry).run f).function = f) ∧
    ∀ names rounds e,
      (rounds ≤ 1 ∨ Block.FrontUnnamed f.instrs) →
      ((Pass.licm names rounds).run f).result = .error e →
      ((Pass.licm names rounds).run f).function = f :=
  ⟨fun _ _ _ h => ssa_unchanged_of_error h, fun _ _ _ hfront h => licm_unchanged_of_error hfront h⟩

def goingAstray : Function where
  name := "main"
  instrs := [.jump "away"]

theorem goingAstray_unchanged :
    (((Pass.ssa "undefined" "entry").run goingAstray).result =
        .error (.unknownLabel "b0" "away") ∧
      ((Pass.ssa "undefined" "entry").run goingAstray).function = goingAstray) ∧
    Block.FrontUnnamed goingAstray.instrs ∧
    ((Pass.licm {} 2).run goingAstray).result = .error (.unknownLabel "b0" "away") ∧
    ((Pass.licm {} 2).run goingAstray).function = goingAstray := by
  have hssa : ((Pass.ssa "undefined" "entry").run goingAstray).result =
      .error (.unknownLabel "b0" "away") := by decide +kernel
  have hlicm : ((Pass.licm {} 2).run goingAstray).result =
      .error (.unknownLabel "b0" "away") := by decide +kernel
  have hfront : Block.FrontUnnamed goingAstray.instrs := by decide +kernel
  obtain ⟨ssa, licm⟩ := Pass.unchanged_of_error goingAstray
  exact ⟨⟨hssa, ssa _ _ _ hssa⟩, hfront, hlicm, licm _ _ _ (.inr hfront) hlicm⟩

def loopingToFront : Function where
  name := "main"
  params := [⟨"c", .named "bool"⟩]
  instrs := [.constant "k" (.named "int") (.int 1), .effect "print" ["k"], .branch "c" "b0" "done",
    .atLabel "done", .ret []]

/-- The preheader takes in what it is put in front of, and the second round misses its name. -/
theorem loopingToFront_changed : ∃ e, ((Pass.licm {} 2).run loopingToFront).result = .error e ∧
    ((Pass.licm {} 2).run loopingToFront).function ≠ loopingToFront := by
  have hresult : ((Pass.licm {} 2).run loopingToFront).result =
      .error (.unknownLabel "preheader.0" "b0") := by decide +kernel
  exact ⟨_, hresult, by decide +kernel⟩

end FlowOpt
