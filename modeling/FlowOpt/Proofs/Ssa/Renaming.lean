import FlowOpt.Proofs.FlowGraph.Construction
import FlowOpt.Ssa.Renaming

/-!
# What one visit renames

A visit gives the phis of a node new versions, renames its code, and feeds the phis of its
successors with what the variables are called at its end. The versions it issues are numbered from
what the counters say before it up to what they say after it, so no version is issued twice.
-/

namespace FlowOpt

namespace Phi

variable {p : Phi} {predecessor value : String} {o : PhiOperand}

/-- The operand of a predecessor that has none yet goes to the end. -/
theorem setOperand_of_not_mem {operands : List PhiOperand}
    (h : predecessor ∉ operands.map (·.predecessor)) :
    setOperand predecessor value operands = operands ++ [⟨value, predecessor⟩] := by
  induction operands with
  | nil => rfl
  | cons o operands ih =>
    rw [List.map_cons, List.mem_cons, not_or] at h
    rw [setOperand, if_neg (Ne.symm h.1), ih h.2, List.cons_append]

end Phi

namespace Ssa

def called (undefined : String) (env : Env) (x : String) : String := (env.get? x).getD undefined

def phiAt (phis : Array (NameMap Phi)) (v : Nat) (x : String) : Option Phi :=
  (phis[v]?.getD {}).get? x

namespace Walk

variable (w : Walk)

def count (x : String) : Nat := (w.counters.get? x).getD 0

def phi? (v : Nat) (x : String) : Option Phi := phiAt w.phis v x

def code? (v : Nat) : Option (List Instruction) := w.renamed[v]?.join

def Assigns (v : Nat) (d : String) : Prop :=
  (∃ x p, w.phi? v x = some p ∧ p.target = d) ∨
    ∃ instrs, w.code? v = some instrs ∧ d ∈ instrs.filterMap (·.dest)

end Walk

structure Issued (w w' : Walk) (ds : List String) : Prop where
  nodup : ds.Nodup
  le : ∀ x, w.count x ≤ w'.count x
  between : ∀ d ∈ ds, ∃ x n, d = FlowGraph.numbered x n ∧ w.count x ≤ n ∧ n < w'.count x

variable {undefined : String} {w w' w'' : Walk} {ds es : List String} {env env' : Env}
  {x y d : String} {u v n : Nat} {p : Phi}

theorem Issued.refl (h : w'.counters = w.counters) : Issued w w' [] where
  nodup := List.nodup_nil
  le x := by simp [Walk.count, h]
  between d hd := by simp at hd

theorem Issued.append (h : Issued w w' ds) (h' : Issued w' w'' es) : Issued w w'' (ds ++ es) where
  nodup := by
    refine h.nodup.append h'.nodup fun d hd he => ?_
    obtain ⟨x, m, rfl, -, hm⟩ := h.between d hd
    obtain ⟨y, n, hxy, hn, -⟩ := h'.between _ he
    obtain ⟨rfl, rfl⟩ := FlowGraph.numbered_inj.1 hxy
    omega
  le x := (h.le x).trans (h'.le x)
  between d hd := by
    rcases List.mem_append.1 hd with hd | hd
    · obtain ⟨x, n, rfl, hl, hr⟩ := h.between d hd
      exact ⟨x, n, rfl, hl, hr.trans_le (h'.le x)⟩
    · obtain ⟨x, n, rfl, hl, hr⟩ := h'.between d hd
      exact ⟨x, n, rfl, (h.le x).trans hl, hr⟩

theorem count_fresh (env : Env) (x y : String) :
    (fresh x env w).2.2.count y = if y = x then w.count x + 1 else w.count y := by
  simp only [fresh, Walk.count, NameMap.get?_insert]
  split <;> rfl

theorem issued_fresh (x : String) (env : Env) (w : Walk) :
    Issued w (fresh x env w).2.2 [FlowGraph.numbered x (w.count x)] where
  nodup := List.nodup_singleton _
  le y := by
    rw [count_fresh]
    split
    · next h => exact h ▸ Nat.le_succ _
    · exact le_rfl
  between d hd := by
    refine ⟨x, w.count x, List.mem_singleton.1 hd, le_rfl, ?_⟩
    rw [count_fresh, if_pos rfl]
    exact Nat.lt_succ_self _

/-- Code and what becomes of it: arguments are called as they are at that point, and every
destination is a version from there on. -/
inductive Renamed (undefined : String) :
    Env → List Instruction → List Instruction → Env → Prop
  | nil (env : Env) : Renamed undefined env [] [] env
  | effect {env env' : Env} {i : Instruction} {rest rest' : List Instruction}
      (hi : i.dest = none) (h : Renamed undefined env rest rest' env') :
      Renamed undefined env (i :: rest)
        ({ i with args := i.args.map (called undefined env) } :: rest') env'
  | assign {env env' : Env} {i : Instruction} {rest rest' : List Instruction} {x : String} {n : Nat}
      (hi : i.dest = some x)
      (h : Renamed undefined (env.insert x (FlowGraph.numbered x n)) rest rest' env') :
      Renamed undefined env (i :: rest)
        ({ i with
            args := i.args.map (called undefined env)
            dest := some (FlowGraph.numbered x n) } :: rest') env'

structure CodeRenamed (undefined : String) (instrs : List Instruction) (env : Env) (w : Walk)
    (instrs' : List Instruction) (env' : Env) (w' : Walk) : Prop where
  renamed_to : Renamed undefined env instrs instrs' env'
  issued : Issued w w' (instrs'.filterMap (·.dest))
  phis : w'.phis = w.phis
  renamed : w'.renamed = w.renamed

/-- The state behind the arguments of an instruction: only undefined ones are counted. -/
def Walk.afterArgs (w : Walk) (env : Env) (i : Instruction) : Walk :=
  { w with undefinedUses := w.undefinedUses + i.args.countP (!env.contains ·) }

theorem renameInstrs_effect {i : Instruction} {rest : List Instruction} (hi : i.dest = none) :
    renameInstrs undefined (i :: rest) env w =
      (let out := renameInstrs undefined rest env (w.afterArgs env i)
       ({ i with args := i.args.map (called undefined env) } :: out.1, out.2)) := by
  simp only [renameInstrs, hi]
  rfl

theorem renameInstrs_assign {i : Instruction} {rest : List Instruction} (hi : i.dest = some x) :
    renameInstrs undefined (i :: rest) env w =
      (let out := renameInstrs undefined rest (fresh x env (w.afterArgs env i)).2.1
        (fresh x env (w.afterArgs env i)).2.2
       ({ i with
          args := i.args.map (called undefined env)
          dest := some (FlowGraph.numbered x (w.count x)) } :: out.1, out.2)) := by
  simp only [renameInstrs, hi]
  rfl

theorem renameInstrs_spec (undefined : String) (instrs : List Instruction) (env : Env) (w : Walk) :
    CodeRenamed undefined instrs env w (renameInstrs undefined instrs env w).1
      (renameInstrs undefined instrs env w).2.1 (renameInstrs undefined instrs env w).2.2 := by
  induction instrs generalizing env w with
  | nil => exact ⟨.nil env, .refl rfl, rfl, rfl⟩
  | cons i rest ih =>
    cases hdest : i.dest with
    | none =>
      have h := ih env (w.afterArgs env i)
      rw [renameInstrs_effect hdest]
      refine ⟨.effect hdest h.renamed_to, ?_, h.phis, h.renamed⟩
      simp only [List.filterMap_cons, hdest]
      exact ⟨h.issued.nodup, h.issued.le, h.issued.between⟩
    | some x =>
      have h := ih (fresh x env (w.afterArgs env i)).2.1 (fresh x env (w.afterArgs env i)).2.2
      have hf : Issued w (fresh x env (w.afterArgs env i)).2.2
          [FlowGraph.numbered x (w.count x)] := by
        have h := issued_fresh x env (w.afterArgs env i)
        exact ⟨h.nodup, h.le, h.between⟩
      rw [renameInstrs_assign hdest]
      refine ⟨.assign hdest h.renamed_to, ?_, h.phis, h.renamed⟩
      simp only [List.filterMap_cons]
      exact hf.append h.issued

def Walk.setPhi (w : Walk) (v : Nat) (x : String) (p : Phi) : Walk :=
  { w with phis := w.phis.modify v (·.insert x p) }

theorem phiAt_modify {phis : Array (NameMap Phi)} (hv : v < phis.size) (p : Phi) :
    phiAt (phis.modify v (·.insert x p)) u y =
      if u = v ∧ y = x then some p else phiAt phis u y := by
  simp only [phiAt, Array.getElem?_modify]
  by_cases h : v = u
  · subst h
    simp [hv]
  · rw [if_neg h, if_neg fun hc => h hc.1.symm]

theorem phi?_setPhi (hv : v < w.phis.size) (p : Phi) :
    (w.setPhi v x p).phi? u y = if u = v ∧ y = x then some p else w.phi? u y :=
  phiAt_modify hv p

@[simp] theorem size_setPhi : (w.setPhi v x p).phis.size = w.phis.size := by
  simp [Walk.setPhi]

theorem namePhis_cons (rest : List (String × Phi)) :
    namePhis v ((x, p) :: rest) env w =
      namePhis v rest (env.insert x (FlowGraph.numbered x (w.count x)))
        ((fresh x env w).2.2.setPhi v x
          { p with dest := some (FlowGraph.numbered x (w.count x)) }) := rfl

/-- What naming phis does: those of the list, which are of different variables, each get the next
version of theirs. -/
structure PhisNamed (v : Nat) (phis : List (String × Phi)) (env : Env) (w : Walk) (env' : Env)
    (w' : Walk) : Prop where
  named : ∀ x p, (x, p) ∈ phis → env'.get? x = some (FlowGraph.numbered x (w.count x)) ∧
    w'.count x = w.count x + 1 ∧
    w'.phi? v x = some { p with dest := some (FlowGraph.numbered x (w.count x)) }
  other : ∀ x, x ∉ phis.map (·.1) → env'.get? x = env.get? x ∧ w'.count x = w.count x ∧
    w'.phi? v x = w.phi? v x
  elsewhere : ∀ u, u ≠ v → ∀ x, w'.phi? u x = w.phi? u x
  size_eq : w'.phis.size = w.phis.size
  renamed : w'.renamed = w.renamed

theorem namePhis_spec (hv : v < w.phis.size) {phis : List (String × Phi)}
    (hn : (phis.map (·.1)).Nodup) (env : Env) :
    PhisNamed v phis env w (namePhis v phis env w).1 (namePhis v phis env w).2 := by
  induction phis generalizing env w with
  | nil => exact ⟨by simp, fun x _ => ⟨rfl, rfl, rfl⟩, fun _ _ _ => rfl, rfl, rfl⟩
  | cons e rest ih =>
    obtain ⟨x, p⟩ := e
    rw [List.map_cons, List.nodup_cons] at hn
    obtain ⟨hx, hn⟩ := hn
    rw [namePhis_cons]
    have hcount : ∀ y, ((fresh x env w).2.2.setPhi v x
        { p with dest := some (FlowGraph.numbered x (w.count x)) }).count y =
          if y = x then w.count x + 1 else w.count y := fun y =>
      count_fresh env x y
    have hphi : ∀ u y, ((fresh x env w).2.2.setPhi v x
        { p with dest := some (FlowGraph.numbered x (w.count x)) }).phi? u y =
          if u = v ∧ y = x then some { p with dest := some (FlowGraph.numbered x (w.count x)) }
          else w.phi? u y := fun u y => phi?_setPhi (w := (fresh x env w).2.2) hv _
    have hv' : v < ((fresh x env w).2.2.setPhi v x
        { p with dest := some (FlowGraph.numbered x (w.count x)) }).phis.size := by
      rw [size_setPhi]
      exact hv
    have h := ih (w := (fresh x env w).2.2.setPhi v x
        { p with dest := some (FlowGraph.numbered x (w.count x)) }) hv' hn
        (env.insert x (FlowGraph.numbered x (w.count x)))
    refine ⟨fun y q hy => ?_, fun y hy => ?_, fun u hu y => ?_, ?_, h.renamed⟩
    · rcases List.mem_cons.1 hy with heq | hy
      · obtain ⟨rfl, rfl⟩ := Prod.mk.inj heq
        obtain ⟨henv, hc, hp⟩ := h.other y hx
        refine ⟨henv.trans (by simp), hc.trans ?_, hp.trans ?_⟩
        · rw [hcount, if_pos rfl]
        · rw [hphi, if_pos ⟨rfl, rfl⟩]
      · have hne : y ≠ x := fun h => hx (h ▸ List.mem_map.2 ⟨_, hy, rfl⟩)
        have hy' := h.named y q hy
        rwa [hcount, if_neg hne] at hy'
    · rw [List.map_cons, List.mem_cons, not_or] at hy
      obtain ⟨henv, hc, hp⟩ := h.other y hy.2
      refine ⟨henv.trans (by simp [hy.1]), hc.trans ?_, hp.trans ?_⟩
      · rw [hcount, if_neg hy.1]
      · rw [hphi, if_neg fun hc => hy.1 hc.2]
    · rw [h.elsewhere u hu y, hphi, if_neg fun hc => hu hc.1]
    · rw [h.size_eq, size_setPhi]
      rfl

structure NodeNamed (v : Nat) (env : Env) (w : Walk) (env' : Env) (w' : Walk) : Prop where
  named : ∀ x p, w.phi? v x = some p →
    env'.get? x = some (FlowGraph.numbered x (w.count x)) ∧ w'.count x = w.count x + 1
  other : ∀ x, w.phi? v x = none → env'.get? x = env.get? x ∧ w'.count x = w.count x
  phi : ∀ u x, w'.phi? u x =
    (w.phi? u x).map fun p => if u = v then { p with dest := env'.get? x } else p
  size_eq : w'.phis.size = w.phis.size
  renamed : w'.renamed = w.renamed

theorem NodeNamed.le (h : NodeNamed v env w env' w') (x : String) : w.count x ≤ w'.count x := by
  cases hx : w.phi? v x with
  | some p => exact (h.named x p hx).2 ▸ Nat.le_succ _
  | none => exact (h.other x hx).2.ge

theorem nodeNamed (hv : v < w.phis.size) (env : Env) :
    NodeNamed v env w (namePhis v (w.phis[v]?.getD {}).entries env w).1
      (namePhis v (w.phis[v]?.getD {}).entries env w).2 := by
  have h := namePhis_spec hv (w.phis[v]?.getD {}).nodup_keys env
  have hlisted : ∀ x p, w.phi? v x = some p → (x, p) ∈ (w.phis[v]?.getD {}).entries :=
    fun x p hp => NameMap.mem_entries_iff.2 hp
  have hunlisted : ∀ x, w.phi? v x = none → x ∉ (w.phis[v]?.getD {}).entries.map (·.1) := by
    intro x hx hm
    obtain ⟨p, hp⟩ := NameMap.mem_keys_iff.1 hm
    exact Option.some_ne_none p (hp.symm.trans hx)
  refine ⟨fun x p hp => ?_, fun x hx => ?_, fun u x => ?_, h.size_eq, h.renamed⟩
  · obtain ⟨hname, hcount, -⟩ := h.named x p (hlisted x p hp)
    exact ⟨hname, hcount⟩
  · obtain ⟨hname, hcount, -⟩ := h.other x (hunlisted x hx)
    exact ⟨hname, hcount⟩
  · by_cases hu : u = v
    · subst hu
      simp only [if_true]
      cases hx : w.phi? u x with
      | some p =>
        obtain ⟨hname, -, hp⟩ := h.named x p (hlisted x p hx)
        rw [hp, Option.map_some, hname]
      | none => exact (h.other x (hunlisted x hx)).2.2.trans hx
    · simp only [if_neg hu, Option.map_id']
      exact h.elsewhere u hu x

theorem feedPhis_eq (block : String) (s : Nat) :
    feedPhis undefined block env w s =
      (w.phis[s]?.getD {}).entries.foldl (fun w e =>
        { w.setPhi s e.1 (e.2.addOperand block (called undefined env e.1)) with
          undefinedUses := w.undefinedUses + if env.contains e.1 then 0 else 1 }) w := rfl

theorem feedPhis_fold (undefined : String) (env : Env) {s : Nat} (hs : s < w.phis.size)
    (block : String) {entries : List (String × Phi)} (hn : (entries.map (·.1)).Nodup) :
    let out := entries.foldl (fun w e =>
        { w.setPhi s e.1 (e.2.addOperand block (called undefined env e.1)) with
          undefinedUses := w.undefinedUses + if env.contains e.1 then 0 else 1 }) w
    (∀ x p, (x, p) ∈ entries →
        out.phi? s x = some (p.addOperand block (called undefined env x))) ∧
      (∀ x, x ∉ entries.map (·.1) → out.phi? s x = w.phi? s x) ∧
      (∀ u, u ≠ s → ∀ x, out.phi? u x = w.phi? u x) ∧ out.phis.size = w.phis.size ∧
      out.counters = w.counters ∧ out.renamed = w.renamed := by
  induction entries generalizing w with
  | nil => exact ⟨by simp, fun _ _ => rfl, fun _ _ _ => rfl, rfl, rfl, rfl⟩
  | cons e rest ih =>
    obtain ⟨x, p⟩ := e
    rw [List.map_cons, List.nodup_cons] at hn
    obtain ⟨hx, hn⟩ := hn
    obtain ⟨hfed, hother, helse, hsize, hcount, hren⟩ := ih (w :=
      { w.setPhi s x (p.addOperand block (called undefined env x)) with
        undefinedUses := w.undefinedUses + if env.contains x then 0 else 1 })
      (by simpa using hs) hn
    have hphi : ∀ u y, Walk.phi?
        { w.setPhi s x (p.addOperand block (called undefined env x)) with
          undefinedUses := w.undefinedUses + if env.contains x then 0 else 1 } u y =
        if u = s ∧ y = x then some (p.addOperand block (called undefined env x))
        else w.phi? u y := fun u y => phi?_setPhi hs _
    refine ⟨fun y q hy => ?_, fun y hy => ?_, fun u hu y => ?_, by simpa using hsize, hcount, hren⟩
    · rcases List.mem_cons.1 hy with heq | hy
      · obtain ⟨rfl, rfl⟩ := Prod.mk.inj heq
        exact (hother y hx).trans ((hphi s y).trans (if_pos ⟨rfl, rfl⟩))
      · exact hfed y q hy
    · rw [List.map_cons, List.mem_cons, not_or] at hy
      exact (hother y hy.2).trans ((hphi s y).trans (if_neg fun hc => hy.1 hc.2))
    · exact (helse u hu y).trans ((hphi u y).trans (if_neg fun hc => hu hc.1))

structure PhisFed (undefined block : String) (env : Env) (nodes : List Nat) (w w' : Walk) :
    Prop where
  phi : ∀ u x, w'.phi? u x = if u ∈ nodes then
    (w.phi? u x).map (·.addOperand block (called undefined env x)) else w.phi? u x
  size_eq : w'.phis.size = w.phis.size
  counters : w'.counters = w.counters
  renamed : w'.renamed = w.renamed

theorem feedPhis_spec {s : Nat} (hs : s < w.phis.size) (undefined block : String) (env : Env) :
    PhisFed undefined block env [s] w (feedPhis undefined block env w s) := by
  obtain ⟨hfed, hother, helse, hsize, hcount, hren⟩ := feedPhis_fold undefined
    env hs block (w.phis[s]?.getD {}).nodup_keys
  rw [feedPhis_eq]
  refine ⟨fun u x => ?_, hsize, hcount, hren⟩
  by_cases hu : u = s
  · subst hu
    rw [if_pos (List.mem_singleton_self u)]
    cases hp : w.phi? u x with
    | some p => exact hfed x p (NameMap.mem_entries_iff.2 hp)
    | none =>
      refine (hother x fun hx => ?_).trans hp
      obtain ⟨p, hp'⟩ := NameMap.mem_keys_iff.1 hx
      exact Option.some_ne_none p (hp'.symm.trans hp)
  · rw [if_neg fun h => hu (List.mem_singleton.1 h)]
    exact helse u hu x

theorem foldl_feedPhis_spec {nodes : List Nat} (hn : nodes.Nodup)
    (hs : ∀ s ∈ nodes, s < w.phis.size) (undefined block : String) (env : Env) :
    PhisFed undefined block env nodes w (nodes.foldl (feedPhis undefined block env) w) := by
  induction nodes generalizing w with
  | nil => exact ⟨fun u x => by simp, rfl, rfl, rfl⟩
  | cons s nodes ih =>
    obtain ⟨hsn, hn⟩ := List.nodup_cons.1 hn
    have h1 := feedPhis_spec (hs s List.mem_cons_self) undefined block env
    have h2 := ih (w := feedPhis undefined block env w s) hn fun t ht => by
      rw [h1.size_eq]
      exact hs t (List.mem_cons_of_mem _ ht)
    refine ⟨fun u x => ?_, h2.size_eq.trans h1.size_eq, h2.counters.trans h1.counters,
      h2.renamed.trans h1.renamed⟩
    rw [List.foldl_cons, h2.phi, h1.phi]
    by_cases hu : u = s
    · subst hu
      simp [hsn]
    · simp [hu]

end Ssa

end FlowOpt
