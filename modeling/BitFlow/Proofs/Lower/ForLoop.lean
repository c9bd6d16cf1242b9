import BitFlow.Proofs.Action.Render
import BitFlow.Proofs.Lower.Finish

/-!
# A `for` loop is a `while` loop

`for (init; cond; step) body` means `init` and then a `while` loop whose body ends with `step`;
each `continue` of the body takes the step along. `Stmt.advancedAll` writes that body out. `Spot` is
a place in a program where one statement stands, however deep. At such a place the one loop may
stand for the other: the two programs are refused alike, or have the same graph but for the name in
the labels of that loop's blocks.

`Program.lowerOpen` is the lowering that leaves this name open. So blocks of other loops keep their
labels to the letter.

Main statements: `Lower.renders_advancedAll` -- a body with its step written out is lowered as the
body is under the step; `Program.lower_forLoop`.
-/

namespace BitFlow

/-! ## 1. Bodies with the step written out -/

namespace Stmt

mutual

/-- The statement with `step` before each `continue` that belongs to the loop around it. -/
def advanced (step : List Stmt) : Stmt → List Stmt
  | .branch arms otherwise => [.branch (advancedArms step arms) (advancedAll step otherwise)]
  | .forLoop init cond next body => [.forLoop (advancedAll step init) cond next body]
  | .continueLoop => step ++ [.continueLoop]
  | .assign x ss e => [.assign x ss e]
  | .read q x => [.read q x]
  | .write q e => [.write q e]
  | .whileLoop cond body => [.whileLoop cond body]
  | .breakLoop => [.breakLoop]

/-- The same for statements one after the other, -/
def advancedAll (step : List Stmt) : List Stmt → List Stmt
  | [] => []
  | s :: ss => advanced step s ++ advancedAll step ss

/-- and for the arms of a conditional. -/
def advancedArms (step : List Stmt) : List (Expr × List Stmt) → List (Expr × List Stmt)
  | [] => []
  | (cond, body) :: rest => (cond, advancedAll step body) :: advancedArms step rest

end

theorem advanced_ne_nil (step : List Stmt) (s : Stmt) : advanced step s ≠ [] := by
  cases s <;> simp [advanced]

@[simp] theorem isEmpty_advancedAll (step ss : List Stmt) :
    (advancedAll step ss).isEmpty = ss.isEmpty := by
  cases ss with
  | nil => rfl
  | cons s ss => simp [advancedAll, advanced_ne_nil]

mutual

theorem advanced_nil (s : Stmt) : advanced [] s = [s] := by
  match s with
  | .branch arms otherwise => rw [advanced, advancedArms_nil arms, advancedAll_nil otherwise]
  | .forLoop init _ _ _ => rw [advanced, advancedAll_nil init]
  | .assign .. | .read .. | .write .. | .whileLoop .. | .breakLoop | .continueLoop => rfl

/-- Without a step nothing is written out. -/
theorem advancedAll_nil (ss : List Stmt) : advancedAll [] ss = ss := by
  match ss with
  | [] => rfl
  | s :: ss =>
    rw [advancedAll, advanced_nil s, advancedAll_nil ss]
    rfl

theorem advancedArms_nil (arms : List (Expr × List Stmt)) : advancedArms [] arms = arms := by
  match arms with
  | [] => rfl
  | (cond, body) :: rest => rw [advancedArms, advancedAll_nil body, advancedArms_nil rest]

end

-- a loop inside keeps its own jumps, but what starts it belongs to the loop around
example (s : Stmt) (c : Expr) :
    advancedAll [s] [.whileLoop c [.continueLoop],
        .forLoop [.continueLoop] c [.continueLoop] [.continueLoop]] =
      [.whileLoop c [.continueLoop],
        .forLoop [s, .continueLoop] c [.continueLoop] [.continueLoop]] := rfl

end Stmt

/-! ## 2. Conditionals from their parts -/

namespace Lower

/-- An arm of a conditional that is tested, and what follows if it is not always taken. -/
def tested (label : String) (b join : BlockId) (i : Nat) (cond : Expr) (isEmpty : Bool)
    (body : BlockId → Lower BlockId) (rest : Lower Bool) : Lower Bool := do
  let known ← Build.knownCondition cond
  if known = some false then
    rest
  else
    let test ←
      if known = some true then pure none
      else do
        enter b
        let c ← Build.lowerCondition cond
        pure (some c)
    arm (label ++ ".arm" ++ toString i) b join test isEmpty body
    if known = some true then pure true
    else rest

/-- A conditional at the end of `b` with the given arms. -/
def conditional (b : BlockId) (arms : String → BlockId → Lower Bool) (isEmpty : Bool)
    (otherwise : BlockId → Lower BlockId) : Lower BlockId := do
  let label ← freshLabel "if"
  let join ← newBlock (label ++ ".end") b
  let closed ← arms label join
  if !closed then
    arm (label ++ ".else") b join none isEmpty otherwise
  sealJoin join
  pure join

variable {p p' : Program} {w : String} {H : List BlockId}
  {advance advance' body body' : BlockId → Lower BlockId}

theorem lowerArms_cons (label : String) (b join : BlockId) (i : Nat) (cond : Expr)
    (ss : List Stmt) (rest : List (Expr × List Stmt)) :
    lowerArms p advance label b join i ((cond, ss) :: rest) =
      tested label b join i cond ss.isEmpty (lowerStmts p advance ss)
        (lowerArms p advance label b join (i + 1) rest) := by
  rw [lowerArms]
  rfl

theorem lowerStmt_branch (arms : List (Expr × List Stmt)) (otherwise : List Stmt) (b : BlockId) :
    lowerStmt p advance (.branch arms otherwise) b =
      conditional b (fun label join => lowerArms p advance label b join 0 arms) otherwise.isEmpty
        (lowerStmts p advance otherwise) := by
  rw [lowerStmt]
  rfl

theorem lowerStmts_append (ss ts : List Stmt) (b : BlockId) :
    lowerStmts p advance (ss ++ ts) b = lowerStmts p advance ss b >>= lowerStmts p advance ts := by
  induction ss generalizing b with
  | nil =>
    rw [lowerStmts, pure_bind]
    rfl
  | cons s ss ih =>
    rw [List.cons_append, lowerStmts, lowerStmts, bind_assoc]
    exact congrArg (_ >>= ·) (funext ih)

theorem lowerStmts_single (s : Stmt) (b : BlockId) :
    lowerStmts p advance [s] b = lowerStmt p advance s b := by
  rw [lowerStmts]
  exact bind_pure _

theorem renders_tested {label : String} {b join : BlockId} {i : Nat} {cond : Expr} {isEmpty : Bool}
    {rest rest' : Lower Bool} (hlabel : ∀ s, named w (label ++ s) = label ++ s)
    (hbody : ∀ c, Renders w H H (body c) (body' c)) (hrest : Renders w H H rest rest') :
    Renders w H H (tested label b join i cond isEmpty body rest)
      (tested label b join i cond isEmpty body' rest') := by
  have harm : ∀ test, Renders w H H (arm (label ++ ".arm" ++ toString i) b join test isEmpty body)
      (arm (label ++ ".arm" ++ toString i) b join test isEmpty body') := by
    refine fun test => renders_arm ?_ hbody
    rw [String.append_assoc, hlabel]
  refine .bind (.of_blind (compositional_blind.knownCondition cond)) fun known => ?_
  split
  · exact hrest
  · split
    · exact .bind (.pure none) fun test => .bind (harm test) fun _ => .pure true
    · refine .bind (.of_blind (compositional_blind.enter b)) fun _ => ?_
      refine .bind (.of_blind (compositional_blind.storing.lowerCondition cond)) fun c => ?_
      exact .bind (.pure (some c)) fun test => .bind (harm test) fun _ => hrest

theorem renders_conditional {b : BlockId} {arms arms' : String → BlockId → Lower Bool}
    {isEmpty : Bool}
    (harms : ∀ label join, (∀ s, named w (label ++ s) = label ++ s) →
      Renders w H H (arms label join) (arms' label join))
    (hbody : ∀ c, Renders w H H (body c) (body' c)) :
    Renders w H H (conditional b arms isEmpty body) (conditional b arms' isEmpty body') := by
  refine renders_freshLabel fun n => ?_
  have hlabel : ∀ s, named w ("if" ++ toString n ++ s) = "if" ++ toString n ++ s := by
    intro s
    rw [String.append_assoc]
    exact named_append_of_head (a := 'i') (by decide) (by decide)
  refine .bind (renders_newBlock b (hlabel _)) fun join => ?_
  refine .bind (harms _ join hlabel) fun closed => ?_
  have hseal : Renders w H H (sealJoin join >>= fun _ => Pure.pure join)
      (sealJoin join >>= fun _ => Pure.pure join) :=
    .bind (renders_sealJoin join) fun _ => .pure join
  cases closed
  · exact .bind (renders_arm (hlabel _) hbody) fun _ => hseal
  · exact hseal

/-! ## 3. Statements -/

theorem portFor_congr (hp : p'.ports = p.ports) : portFor p' = portFor p := by
  funext q access site
  unfold portFor Program.portAt?
  rw [hp]

theorem portRead_congr (hp : p'.ports = p.ports) : portRead p' = portRead p := by
  funext q x b
  unfold portRead
  rw [portFor_congr hp]

theorem portWrite_congr (hp : p'.ports = p.ports) : portWrite p' = portWrite p := by
  funext q e b
  unfold portWrite
  rw [portFor_congr hp]

theorem named_for (n : Nat) : named w ("for" ++ toString n) = "for" ++ toString n :=
  named_append_of_head (a := 'f') (by decide) (by decide)

theorem named_while (n : Nat) : named w ("while" ++ toString n) = "while" ++ toString n :=
  named_append_of_head (a := 'w') (by decide) (by decide)

/-- What leads on to the next round may be rendered, -/
theorem renders_continue (ha : ∀ b, Renders w H H (advance b) (advance' b)) (b : BlockId) :
    Renders w H H (continueLoop advance b)
      (lowerStmts p' advance' ([] ++ [.continueLoop]) b) := by
  rw [List.nil_append, lowerStmts_single, lowerStmt]
  exact renders_continueLoop ha b

/-- or it may be written out before the jump. -/
theorem renders_continue_step {head : BlockId} {step : List Stmt}
    (hstep : ∀ b, Renders w (head :: H) (head :: H) (lowerStmts p pure step b)
      (lowerStmts p' pure step b)) (b : BlockId) :
    Renders w (head :: H) (head :: H) (continueLoop (lowerStmts p pure step) b)
      (lowerStmts p' pure (step ++ [.continueLoop]) b) := by
  rw [lowerStmts_append]
  refine .congr (fun _ h => run_continueLoop h b) (fun _ _ => rfl) (.bind (hstep b) fun last => ?_)
  rw [lowerStmts_single, lowerStmt]
  refine .congr (fun _ _ => rfl) (fun _ h => run_continueLoop h last) ?_
  rw [pure_bind]
  exact .bind (renders_addEdge _ _ _) fun _ => renders_deadBlock

mutual

theorem renders_advanced (hp : p'.ports = p.ports) (s : Stmt) {H : List BlockId} {step : List Stmt}
    {advance advance' : BlockId → Lower BlockId}
    (hc : ∀ b, Renders w H H (continueLoop advance b)
      (lowerStmts p' advance' (step ++ [.continueLoop]) b)) (b : BlockId) :
    Renders w H H (lowerStmt p advance s b) (lowerStmts p' advance' (s.advanced step) b) := by
  match s with
  | .assign x ss e =>
    rw [Stmt.advanced, lowerStmts_single, lowerStmt, lowerStmt]
    exact .of_blind (compositional_blind.storing.assign x ss e b)
  | .read q x =>
    rw [Stmt.advanced, lowerStmts_single, lowerStmt, lowerStmt, portRead_congr hp]
    exact .of_blind (compositional_blind.storing.portRead p q x b)
  | .write q e =>
    rw [Stmt.advanced, lowerStmts_single, lowerStmt, lowerStmt, portWrite_congr hp]
    exact .of_blind (compositional_blind.storing.portWrite p q e b)
  | .branch arms otherwise =>
    rw [Stmt.advanced, lowerStmts_single, lowerStmt_branch, lowerStmt_branch,
      Stmt.isEmpty_advancedAll]
    exact renders_conditional (fun label join hlabel => renders_advancedArms hp arms hc hlabel)
      (renders_advancedAll hp otherwise hc)
  | .whileLoop cond body =>
    rw [Stmt.advanced, lowerStmts_single, lowerStmt, lowerStmt]
    refine renders_loop named_while fun head first => ?_
    have hbody := renders_advancedAll hp body (H := head :: H) (renders_continue .pure) first
    rw [Stmt.advancedAll_nil] at hbody
    exact .bind hbody .pure
  | .forLoop init cond next body =>
    rw [Stmt.advanced, lowerStmts_single, lowerStmt, lowerStmt]
    refine .bind (renders_advancedAll hp init hc b) fun start => ?_
    refine renders_loop named_for fun head first => ?_
    have hnext : ∀ b, Renders w (head :: H) (head :: H) (lowerStmts p pure next b)
        (lowerStmts p' pure next b) := by
      intro b
      have h := renders_advancedAll hp next (H := head :: H) (renders_continue .pure) b
      rwa [Stmt.advancedAll_nil] at h
    have hbody := renders_advancedAll hp body (renders_continue hnext) first
    rw [Stmt.advancedAll_nil] at hbody
    exact .bind hbody hnext
  | .breakLoop =>
    rw [Stmt.advanced, lowerStmts_single, lowerStmt, lowerStmt]
    exact renders_breakLoop b
  | .continueLoop =>
    rw [Stmt.advanced, lowerStmt]
    exact hc b

/-- **A body with its step written out is lowered as the body is under the step**, whatever renders
    `continue` there. -/
theorem renders_advancedAll (hp : p'.ports = p.ports) (ss : List Stmt) {H : List BlockId}
    {step : List Stmt} {advance advance' : BlockId → Lower BlockId}
    (hc : ∀ b, Renders w H H (continueLoop advance b)
      (lowerStmts p' advance' (step ++ [.continueLoop]) b)) (b : BlockId) :
    Renders w H H (lowerStmts p advance ss b)
      (lowerStmts p' advance' (Stmt.advancedAll step ss) b) := by
  match ss with
  | [] =>
    rw [Stmt.advancedAll, lowerStmts, lowerStmts]
    exact .pure b
  | s :: ss =>
    rw [Stmt.advancedAll, lowerStmts_append, lowerStmts]
    exact .bind (renders_advanced hp s hc b) (renders_advancedAll hp ss hc)

theorem renders_advancedArms (hp : p'.ports = p.ports) (arms : List (Expr × List Stmt))
    {H : List BlockId} {step : List Stmt} {advance advance' : BlockId → Lower BlockId}
    (hc : ∀ b, Renders w H H (continueLoop advance b)
      (lowerStmts p' advance' (step ++ [.continueLoop]) b)) {label : String} {b join : BlockId}
    {i : Nat} (hlabel : ∀ s, named w (label ++ s) = label ++ s) :
    Renders w H H (lowerArms p advance label b join i arms)
      (lowerArms p' advance' label b join i (Stmt.advancedArms step arms)) := by
  match arms with
  | [] =>
    rw [Stmt.advancedArms, lowerArms, lowerArms]
    exact .pure false
  | (cond, body) :: rest =>
    rw [Stmt.advancedArms, lowerArms_cons, lowerArms_cons, Stmt.isEmpty_advancedAll]
    exact renders_tested hlabel (renders_advancedAll hp body hc)
      (renders_advancedArms hp rest hc hlabel)

end

/-- Statements render themselves. -/
theorem renders_lowerStmts (hp : p'.ports = p.ports) (ss : List Stmt)
    (ha : ∀ b, Renders w H H (advance b) (advance' b)) (b : BlockId) :
    Renders w H H (lowerStmts p advance ss b) (lowerStmts p' advance' ss b) := by
  have h := renders_advancedAll hp ss (renders_continue ha) b
  rwa [Stmt.advancedAll_nil] at h

theorem renders_lowerStmt (hp : p'.ports = p.ports) (s : Stmt)
    (ha : ∀ b, Renders w H H (advance b) (advance' b)) (b : BlockId) :
    Renders w H H (lowerStmt p advance s b) (lowerStmt p' advance' s b) := by
  rw [← lowerStmts_single, ← lowerStmts_single]
  exact renders_lowerStmts hp [s] ha b

theorem renders_lowerArms (hp : p'.ports = p.ports) (arms : List (Expr × List Stmt))
    (ha : ∀ b, Renders w H H (advance b) (advance' b)) {label : String} {b join : BlockId}
    {i : Nat} (hlabel : ∀ s, named w (label ++ s) = label ++ s) :
    Renders w H H (lowerArms p advance label b join i arms)
      (lowerArms p' advance' label b join i arms) := by
  rw [← Stmt.advancedArms_nil arms]
  nth_rewrite 1 [Stmt.advancedArms_nil]
  exact renders_advancedArms hp arms (renders_continue ha) hlabel

/-! ## 4. Places in a program -/

end Lower

/-- A place among statements, with all that stands around it. -/
inductive Spot where
  /-- Before `rest`. -/
  | here (rest : List Stmt)
  | later (s : Stmt) (c : Spot)
  | arm (before : List (Expr × List Stmt)) (cond : Expr) (c : Spot)
      (after : List (Expr × List Stmt)) (otherwise rest : List Stmt)
  | elseArm (arms : List (Expr × List Stmt)) (c : Spot) (rest : List Stmt)
  | whileBody (cond : Expr) (c : Spot) (rest : List Stmt)
  | forInit (c : Spot) (cond : Expr) (step body rest : List Stmt)
  | forStep (init : List Stmt) (cond : Expr) (c : Spot) (body rest : List Stmt)
  | forBody (init : List Stmt) (cond : Expr) (step : List Stmt) (c : Spot) (rest : List Stmt)

namespace Spot

/-- The statements with `ss` at the place. -/
def fill (ss : List Stmt) : Spot → List Stmt
  | here rest => ss ++ rest
  | later s c => s :: c.fill ss
  | arm before cond c after otherwise rest =>
      .branch (before ++ (cond, c.fill ss) :: after) otherwise :: rest
  | elseArm arms c rest => .branch arms (c.fill ss) :: rest
  | whileBody cond c rest => .whileLoop cond (c.fill ss) :: rest
  | forInit c cond step body rest => .forLoop (c.fill ss) cond step body :: rest
  | forStep init cond c body rest => .forLoop init cond (c.fill ss) body :: rest
  | forBody init cond step c rest => .forLoop init cond step (c.fill ss) :: rest

theorem isEmpty_fill (c : Spot) {ss : List Stmt} (h : ss ≠ []) : (c.fill ss).isEmpty = false := by
  cases c with
  | here rest =>
    cases ss with
    | nil => exact absurd rfl h
    | cons s ss => rfl
  | _ => rfl

/-- The arms up to the place, each with its number, and then `k`. -/
def armsThen (p : Program) (advance : BlockId → Lower BlockId) (label : String) (b join : BlockId)
    (k : Nat → Lower Bool) : Nat → List (Expr × List Stmt) → Lower Bool
  | i, [] => k i
  | i, (cond, ss) :: rest =>
      Lower.tested label b join i cond ss.isEmpty (Lower.lowerStmts p advance ss)
        (armsThen p advance label b join k (i + 1) rest)

/-- The statements lowered with `hole` at the place, which is given what leads on to the next round
    there. -/
def lower (p : Program) (hole : (BlockId → Lower BlockId) → BlockId → Lower BlockId) :
    Spot → (BlockId → Lower BlockId) → BlockId → Lower BlockId
  | here rest, advance, b => do
      let next ← hole advance b
      Lower.lowerStmts p advance rest next
  | later s c, advance, b => do
      let next ← Lower.lowerStmt p advance s b
      c.lower p hole advance next
  | arm before cond c after otherwise rest, advance, b => do
      let next ← Lower.conditional b
        (fun label join => armsThen p advance label b join (fun i =>
          Lower.tested label b join i cond false (c.lower p hole advance)
            (Lower.lowerArms p advance label b join (i + 1) after)) 0 before)
        otherwise.isEmpty (Lower.lowerStmts p advance otherwise)
      Lower.lowerStmts p advance rest next
  | elseArm arms c rest, advance, b => do
      let next ← Lower.conditional b
        (fun label join => Lower.lowerArms p advance label b join 0 arms) false
        (c.lower p hole advance)
      Lower.lowerStmts p advance rest next
  | whileBody cond c rest, advance, b => do
      let next ← Lower.loop "while" cond [] (c.lower p hole pure) pure b
      Lower.lowerStmts p advance rest next
  | forInit c cond step body rest, advance, b => do
      let start ← c.lower p hole advance b
      let between := Lower.lowerStmts p pure step
      let next ← Lower.loop "for" cond step (Lower.lowerStmts p between body) between start
      Lower.lowerStmts p advance rest next
  | forStep init cond c body rest, advance, b => do
      let start ← Lower.lowerStmts p advance init b
      let between := c.lower p hole pure
      let next ← Lower.loop "for" cond [] (Lower.lowerStmts p between body) between start
      Lower.lowerStmts p advance rest next
  | forBody init cond step c rest, advance, b => do
      let start ← Lower.lowerStmts p advance init b
      let between := Lower.lowerStmts p pure step
      let next ← Lower.loop "for" cond step (c.lower p hole between) between start
      Lower.lowerStmts p advance rest next

end Spot

namespace Lower

variable {p p' : Program} {w : String} {H : List BlockId}
  {advance advance' : BlockId → Lower BlockId}

theorem renders_armsThen (hp : p'.ports = p.ports) {label : String} {b join : BlockId}
    (hlabel : ∀ s, named w (label ++ s) = label ++ s)
    (ha : ∀ b, Renders w H H (advance b) (advance' b)) {k : Nat → Lower Bool}
    {arms : List (Expr × List Stmt)}
    (hk : ∀ i, Renders w H H (k i) (lowerArms p' advance' label b join i arms))
    (before : List (Expr × List Stmt)) (i : Nat) :
    Renders w H H (Spot.armsThen p advance label b join k i before)
      (lowerArms p' advance' label b join i (before ++ arms)) := by
  induction before generalizing i with
  | nil => exact hk i
  | cons a before ih =>
    rw [List.cons_append, lowerArms_cons, Spot.armsThen]
    exact renders_tested hlabel (renders_lowerStmts hp a.2 ha) (ih (i + 1))

/-- **What stands around a place renders itself**: statements at a place may be rendered there. -/
theorem renders_fill (hp : p'.ports = p.ports) {ss : List Stmt} (hne : ss ≠ [])
    {hole : (BlockId → Lower BlockId) → BlockId → Lower BlockId}
    (hhole : ∀ {H advance advance'}, (∀ b, Renders w H H (advance b) (advance' b)) →
      ∀ b, Renders w H H (hole advance b) (lowerStmts p' advance' ss b))
    (c : Spot) (ha : ∀ b, Renders w H H (advance b) (advance' b)) (b : BlockId) :
    Renders w H H (c.lower p hole advance b) (lowerStmts p' advance' (c.fill ss) b) := by
  induction c generalizing H advance advance' b with
  | here rest =>
    rw [Spot.lower, Spot.fill, lowerStmts_append]
    exact .bind (hhole ha b) (renders_lowerStmts hp rest ha)
  | later s c ih =>
    rw [Spot.lower, Spot.fill, lowerStmts]
    exact .bind (renders_lowerStmt hp s ha b) (ih ha)
  | arm before cond c after otherwise rest ih =>
    rw [Spot.lower, Spot.fill, lowerStmts, lowerStmt_branch]
    refine .bind (renders_conditional (fun label join hlabel => ?_)
      (renders_lowerStmts hp otherwise ha)) (renders_lowerStmts hp rest ha)
    refine renders_armsThen hp hlabel ha (fun i => ?_) before 0
    rw [lowerArms_cons, Spot.isEmpty_fill c hne]
    exact renders_tested hlabel (ih ha) (renders_lowerArms hp after ha hlabel)
  | elseArm arms c rest ih =>
    rw [Spot.lower, Spot.fill, lowerStmts, lowerStmt_branch, Spot.isEmpty_fill c hne]
    refine .bind (renders_conditional (fun _ _ hlabel => ?_) (ih ha))
      (renders_lowerStmts hp rest ha)
    exact renders_lowerArms hp arms ha hlabel
  | whileBody cond c rest ih =>
    rw [Spot.lower, Spot.fill, lowerStmts, lowerStmt]
    refine .bind (renders_loop named_while fun head first => ?_) (renders_lowerStmts hp rest ha)
    exact .bind (ih .pure first) .pure
  | forInit c cond step body rest ih =>
    rw [Spot.lower, Spot.fill, lowerStmts, lowerStmt, bind_assoc]
    refine .bind (ih ha b) fun start => ?_
    refine .bind (renders_loop named_for fun head first => ?_) (renders_lowerStmts hp rest ha)
    have hstep := renders_lowerStmts hp step (H := head :: H) (w := w) .pure
    exact .bind (renders_lowerStmts hp body hstep first) hstep
  | forStep init cond c body rest ih =>
    rw [Spot.lower, Spot.fill, lowerStmts, lowerStmt, bind_assoc]
    refine .bind (renders_lowerStmts hp init ha b) fun start => ?_
    refine .bind (renders_loop named_for fun head first => ?_) (renders_lowerStmts hp rest ha)
    have hstep := ih (H := head :: H) .pure
    exact .bind (renders_lowerStmts hp body hstep first) hstep
  | forBody init cond step c rest ih =>
    rw [Spot.lower, Spot.fill, lowerStmts, lowerStmt, bind_assoc]
    refine .bind (renders_lowerStmts hp init ha b) fun start => ?_
    refine .bind (renders_loop named_for fun head first => ?_) (renders_lowerStmts hp rest ha)
    have hstep := renders_lowerStmts hp step (H := head :: H) (w := w) .pure
    exact .bind (ih hstep first) hstep

/-! ## 5. The loop -/

/-- A `for` loop whose name is left open. -/
def openFor (p : Program) (init : List Stmt) (cond : Expr) (step body : List Stmt)
    (advance : BlockId → Lower BlockId) (b : BlockId) : Lower BlockId := do
  let start ← lowerStmts p advance init b
  let between := lowerStmts p pure step
  loop "*" cond step (lowerStmts p between body) between start

/-- The loop called `for`. -/
theorem renders_openFor (hp : p'.ports = p.ports) {init step body : List Stmt} {cond : Expr}
    (ha : ∀ b, Renders "for" H H (advance b) (advance' b)) (b : BlockId) :
    Renders "for" H H (openFor p init cond step body advance b)
      (lowerStmts p' advance' [.forLoop init cond step body] b) := by
  rw [lowerStmts_single, lowerStmt]
  refine .bind (renders_lowerStmts hp init ha b) fun start => ?_
  refine renders_loop (fun n => named_open "for" (toString n)) fun head first => ?_
  have hstep := renders_lowerStmts hp step (H := head :: H) (w := "for") .pure
  exact .bind (renders_lowerStmts hp body hstep first) hstep

/-- **The loop called `while`**, with its step written out. -/
theorem renders_openFor_while (hp : p'.ports = p.ports) {init step body : List Stmt} {cond : Expr}
    (ha : ∀ b, Renders "while" H H (advance b) (advance' b)) (b : BlockId) :
    Renders "while" H H (openFor p init cond step body advance b)
      (lowerStmts p' advance'
        (init ++ [.whileLoop cond (Stmt.advancedAll step body ++ step)]) b) := by
  rw [lowerStmts_append]
  refine .bind (renders_lowerStmts hp init ha b) fun start => ?_
  rw [lowerStmts_single, lowerStmt]
  refine renders_loop (fun n => named_open "while" (toString n)) fun head first => ?_
  have hstep := renders_lowerStmts hp step (H := head :: H) (w := "while") .pure
  rw [lowerStmts_append, bind_pure]
  exact .bind (renders_advancedAll hp body (renders_continue_step hstep) first) hstep

/-- A program whose body is lowered by `body`. -/
def programWith (body : BlockId → Lower BlockId) : Lower BlockId := do
  let entry := (← get).bench.graph.entry
  if !(← Edit.block entry).isSealed then
    Track.sealBlock entry
  let exit ← body entry
  Build.onGraph (modify fun g => { g with exit := some exit })
  pure exit

variable {body : BlockId → Lower BlockId}

theorem renders_program (hbody : ∀ b, Renders w [] [] (body b) (lowerStmts p pure p.body b)) :
    Renders w [] [] (programWith body) (program p) := by
  have hrest : ∀ b, Renders w [] []
      (do
        let exit ← body b
        (Build.onGraph (modify fun g => { g with exit := some exit }) : Lower Unit)
        Pure.pure exit)
      (do
        let exit ← lowerStmts p (innermostAdvance p (← get).loops) p.body b
        (Build.onGraph (modify fun g => { g with exit := some exit }) : Lower Unit)
        Pure.pure exit) := by
    intro b
    have hnone : ∀ l : Lowering, l.heads = [] →
        (get >>= fun l => lowerStmts p (innermostAdvance p l.loops) p.body b).run l =
          (lowerStmts p pure p.body b).run l := by
      intro l hl
      rw [EStateM.run_bind, EStateM.run_get]
      dsimp only
      rw [List.map_eq_nil_iff.1 hl]
      rfl
    rw [← bind_assoc]
    refine .bind (.congr (fun _ _ => rfl) hnone (hbody b)) fun exit => ?_
    exact .bind (.of_blind (blind_editing fun _ => .modify fun _ => rfl)) fun _ => .pure exit
  refine .look fun m l hml _ => ?_
  rw [show l.bench.graph.entry = m.bench.graph.entry from
    congrArg (fun s => s.graph.entry) (filled_iff.1 hml).1]
  refine renders_block fun y => ?_
  show Renders w [] [] (if (!y.isSealed) = true then _ else _)
    (if (!y.isSealed) = true then _ else _)
  split
  · exact .bind (renders_sealBlock _) fun _ => hrest _
  · exact hrest _

end Lower

/-! ## 6. Programs -/

/-- The result with the name `w` where it was left open. -/
def Lowered.named (w : String) (r : Lowered) : Lowered :=
  { r with graph := r.graph.relabel (BitFlow.named w) }

namespace Program

/-- The lowering of `p` with a `for` loop at the place `c` whose name is left open. -/
def lowerOpen (p : Program) (s : Settings) (c : Spot) (init : List Stmt) (cond : Expr)
    (step body : List Stmt) : Except Fault Lowered :=
  match (Lower.programWith (c.lower p (Lower.openFor p init cond step body) pure)).run
      (.start p s) with
  | .error e _ => .error e
  | .ok _ l => .ok l.result

/-- A lowering that ends is not refused by the check that follows it. -/
theorem lower_of_run {p : Program} {s : Settings} {b : BlockId} {l : Lowering}
    (h : (Lower.program p).run (.start p s) = .ok b l) : p.lower s = .ok l.result := by
  obtain ⟨p₁, l₁, p₂, l₂, hmade, rfl⟩ :=
    Ends.of_ok (Lower.ends_program (T := False) .zero s False.elim False.elim) h
  exact lower_of_ok h hmade.finish

theorem filled_start (w : String) (p : Program) (s : Settings) :
    Lower.Filled w (.start p s) (.start p s) := by
  have hentry : named w "entry" = "entry" := named_eq_self (by decide)
  refine Lower.filled_iff.2 ⟨?_, rfl, rfl⟩
  simp [Lowering.start, Bench.fresh, Bench.relabel, Graph.relabel, Graph.fresh, Block.relabel,
    Block.fresh, hentry]

/-- A program that renders another has the same result but for the name. -/
theorem lower_of_renders {p p' : Program} {s : Settings} {w : String}
    {x : Lower BlockId} (hstart : Lowering.start p' s = .start p s)
    (h : Lower.Renders w [] [] x (Lower.program p')) :
    p'.lower s = (match x.run (.start p s) with
      | .error e _ => .error e
      | .ok _ l => .ok l.result : Except Fault Lowered).map (Lowered.named w) := by
  have hrun := h (.start p s) (.start p' s) (hstart ▸ filled_start w p s) rfl
  cases hx : x.run (.start p s) with
  | ok b m =>
    cases hy : (Lower.program p').run (.start p' s) with
    | ok b' l =>
      rw [hx, hy] at hrun
      have hbench := (Lower.filled_iff.1 hrun.2.1).1
      rw [lower_of_run hy]
      show Except.ok (Lowered.mk l.bench.graph l.bench.reaching.stats) = _
      rw [hbench]
      rfl
    | error e l =>
      rw [hx, hy] at hrun
      exact hrun.elim
  | error e m =>
    cases hy : (Lower.program p').run (.start p' s) with
    | ok b' l =>
      rw [hx, hy] at hrun
      exact hrun.elim
    | error e' l =>
      rw [hx, hy] at hrun
      rw [lower_of_error hy, show e' = e from hrun]
      rfl

/-- **A `for` loop is exactly the `while` loop that it stands for**: wherever it stands in a
    program, the lowering gives what it gives with its name left open, once it is called `for` and
    once `while`. -/
theorem lower_forLoop (p : Program) (s : Settings) (c : Spot) (init : List Stmt) (cond : Expr)
    (step body : List Stmt) :
    { p with body := c.fill [.forLoop init cond step body] }.lower s =
        (p.lowerOpen s c init cond step body).map (Lowered.named "for") ∧
      { p with body := c.fill (init ++ [Stmt.whileLoop cond
            (Stmt.advancedAll step body ++ step)]) }.lower s =
        (p.lowerOpen s c init cond step body).map (Lowered.named "while") := by
  have hports : ∀ ss, { p with body := ss }.ports = p.ports := fun _ => rfl
  constructor
  · refine lower_of_renders rfl (Lower.renders_program fun b => ?_)
    exact Lower.renders_fill (hports _) (List.cons_ne_nil _ _)
      (Lower.renders_openFor (hports _)) c .pure b
  · refine lower_of_renders rfl (Lower.renders_program fun b => ?_)
    exact Lower.renders_fill (hports _) (by simp) (Lower.renders_openFor_while (hports _)) c .pure b

end Program

end BitFlow
