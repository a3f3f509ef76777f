import Mathlib.Data.List.Induction
import Mathlib.Data.List.TakeWhile
import Mathlib.Tactic.Common

/-!
# Flow control parameters of a client

`ClientNode` of `les/flowcontrol/control.go`, the buffer that a server keeps for a client. A higher
recharge is valid at once, a lower one after `DecParamDelay`. Parameters between those that are
valid and those that are scheduled are to take the place of an entry of the schedule. The loop
assigns them to its own copy of the entry, so they are lost (`Lost`).

`uint64` and `int64` are bit vectors.
-/

namespace Virbicoin.FlowControl

open List

structure ServerParams where
  bufLimit : BitVec 64
  minRecharge : BitVec 64
deriving DecidableEq

structure ScheduledUpdate where
  time : Int
  params : ServerParams
deriving DecidableEq

structure ClientNode where
  params : ServerParams
  bufValue : BitVec 64
  lastTime : Int
  updateSchedule : List ScheduledUpdate
deriving DecidableEq

def fcTimeConst : BitVec 64 := 1000000

def decParamDelay : Int := 2000000000

def newClientNode (params : ServerParams) (now : Int) : ClientNode :=
  { params, bufValue := params.bufLimit, lastTime := now, updateSchedule := [] }

namespace ClientNode

def recalcBV (node : ClientNode) (now : Int) : ClientNode :=
  let dt := if now < node.lastTime then 0 else BitVec.ofInt 64 (now - node.lastTime)
  let bufValue := node.bufValue + node.params.minRecharge * dt / fcTimeConst
  { node with
    bufValue := if node.params.bufLimit.slt bufValue then node.params.bufLimit else bufValue
    lastTime := now }

/-- The client manager stores the parameters. -/
def updateParams (node : ClientNode) (params : ServerParams) : ClientNode :=
  let diff := params.bufLimit - node.params.bufLimit
  { node with
    params
    bufValue :=
      if (0 : BitVec 64).slt diff then node.bufValue + diff
      else if params.bufLimit.slt node.bufValue then params.bufLimit
      else node.bufValue }

/-- The loop of `update` over what is left of the schedule. -/
def applySchedule (now : Int) : List ScheduledUpdate → ClientNode → ClientNode
  | [], node => { node with updateSchedule := [] }
  | s :: rest, node =>
    if s.time ≤ now then applySchedule now rest ((node.recalcBV s.time).updateParams s.params)
    else { node with updateSchedule := s :: rest }

def update (node : ClientNode) (now : Int) : ClientNode :=
  (applySchedule now node.updateSchedule node).recalcBV now

/-- `s.params = params` is an assignment to a copy of the entry. -/
def reschedule (params : ServerParams) (now : Int) : List ScheduledUpdate → List ScheduledUpdate
  | [] => [⟨now + decParamDelay, params⟩]
  | s :: rest =>
    if s.params.minRecharge ≤ params.minRecharge then [s] else s :: reschedule params now rest

def UpdateParams (node : ClientNode) (params : ServerParams) (now : Int) : ClientNode :=
  let node := node.update now
  if node.params.minRecharge ≤ params.minRecharge then
    { node with updateSchedule := [] }.updateParams params
  else { node with updateSchedule := reschedule params now node.updateSchedule }

end ClientNode

inductive Op where
  | update (now : Int)
  | updateParams (params : ServerParams) (now : Int)

def Op.time : Op → Int
  | .update now => now
  | .updateParams _ now => now

def step (node : ClientNode) : Op → ClientNode
  | .update now => node.update now
  | .updateParams params now => node.UpdateParams params now

/-! ## What an update does -/

variable {node : ClientNode} {now : Int} {p : ServerParams}

/-- The parameters with which a node ends up if no others are requested. -/
def ClientNode.last (node : ClientNode) : ServerParams :=
  (node.updateSchedule.getLast?.map (·.params)).getD node.params

theorem applySchedule_spec (l : List ScheduledUpdate) (node : ClientNode) :
    let node' := ClientNode.applySchedule now l node
    node'.updateSchedule = l.dropWhile (·.time ≤ now) ∧
      node'.last = (l.getLast?.map (·.params)).getD node.params ∧
      (node'.params = node.params ∨ ∃ s ∈ l, s.time ≤ now ∧ s.params = node'.params) := by
  induction l generalizing node with
  | nil => exact ⟨rfl, rfl, .inl rfl⟩
  | cons s rest ih =>
    unfold ClientNode.applySchedule
    split
    · rename_i hs
      obtain ⟨hsched, hlast, hparams⟩ := ih ((node.recalcBV s.time).updateParams s.params)
      refine ⟨hsched.trans (by simp [hs]), hlast.trans ?_, ?_⟩
      · cases rest <;> rfl
      obtain h | ⟨s', hs', hle, heq⟩ := hparams
      · exact .inr ⟨s, mem_cons_self, hs, h.symm⟩
      · exact .inr ⟨s', mem_cons_of_mem _ hs', hle, heq⟩
    rename_i hs
    exact ⟨by simp [hs], rfl, .inl rfl⟩

theorem update_schedule :
    (node.update now).updateSchedule = node.updateSchedule.dropWhile (·.time ≤ now) :=
  (applySchedule_spec node.updateSchedule node).1

theorem update_params : (node.update now).params = node.params ∨
    ∃ s ∈ node.updateSchedule, s.time ≤ now ∧ s.params = (node.update now).params :=
  (applySchedule_spec node.updateSchedule node).2.2

/-! ## What a request does -/

/-- The parameters are between those that are valid and those of an entry of the schedule. -/
def Lost (node : ClientNode) (p : ServerParams) (now : Int) : Prop :=
  p.minRecharge < (node.update now).params.minRecharge ∧
    ∃ s, (node.update now).updateSchedule.find? (·.params.minRecharge ≤ p.minRecharge) = some s ∧
      s.params ≠ p

theorem reschedule_eq (l : List ScheduledUpdate) : ClientNode.reschedule p now l =
    l.takeWhile (p.minRecharge < ·.params.minRecharge) ++
      [(l.find? (·.params.minRecharge ≤ p.minRecharge)).getD ⟨now + decParamDelay, p⟩] := by
  induction l with
  | nil => rfl
  | cons s rest ih =>
    unfold ClientNode.reschedule
    split
    · rename_i hs
      simp [hs, BitVec.not_lt.2 hs]
    · rename_i hs
      simp [hs, BitVec.not_le.1 hs, ih]

theorem UpdateParams_last : (node.UpdateParams p now).last = p ↔ ¬ Lost node p now := by
  unfold ClientNode.UpdateParams Lost
  dsimp only
  split
  · rename_i hle
    exact iff_of_true rfl fun h => absurd h.1 (BitVec.not_lt.2 hle)
  rename_i hlt
  rw [ClientNode.last, reschedule_eq, getLast?_concat]
  cases (node.update now).updateSchedule.find? (·.params.minRecharge ≤ p.minRecharge) with
  | none => simp
  | some s => simp [BitVec.not_le.1 hlt]

theorem mem_UpdateParams {s : ScheduledUpdate} (hs : s ∈ (node.UpdateParams p now).updateSchedule) :
    s = ⟨now + decParamDelay, p⟩ ∨ s ∈ (node.update now).updateSchedule ∧
      (¬ Lost node p now → p.minRecharge ≤ s.params.minRecharge) := by
  unfold ClientNode.UpdateParams at hs
  dsimp only at hs
  split at hs
  · cases hs
  rename_i hlt
  rw [reschedule_eq, mem_append, mem_singleton] at hs
  obtain hs | rfl := hs
  · have hgt := mem_takeWhile_imp hs
    exact .inr ⟨(takeWhile_sublist _).subset hs, fun _ => BitVec.le_of_lt (by simpa using hgt)⟩
  cases hfind : (node.update now).updateSchedule.find? (·.params.minRecharge ≤ p.minRecharge) with
  | none => exact .inl rfl
  | some s =>
    refine .inr ⟨mem_of_find?_eq_some hfind, fun hl => ?_⟩
    have heq : s.params = p := not_not.1 fun hne => hl ⟨BitVec.not_le.1 hlt, s, hfind, hne⟩
    exact BitVec.le_of_eq (congrArg _ heq.symm)

/-! ## Runs -/

def run (node : ClientNode) (ops : List Op) : ClientNode := ops.foldl step node

/-- Every request, if it is the last, is what is valid `DecParamDelay` later. -/
def LastWins (node : ClientNode) (ops : List Op) : Prop :=
  ∀ pre p t post, ops = pre ++ .updateParams p t :: post →
    ∀ times now, t + decParamDelay ≤ now →
      let node' := run node (pre ++ .updateParams p t :: (times ++ [now]).map .update)
      node'.params = p ∧ node'.updateSchedule = []

/-- What lowers the recharge has been requested `DecParamDelay` before, and nothing higher since. -/
def LowersLate (node : ClientNode) (ops : List Op) : Prop :=
  ∀ pre op post params, ops = pre ++ op :: post →
    ((run node pre).update op.time).params = params →
    params.minRecharge < (run node pre).params.minRecharge →
      ∃ l p t r, pre = l ++ .updateParams p t :: r ∧ p.minRecharge ≤ params.minRecharge ∧
        t + decParamDelay ≤ op.time ∧
        ∀ q u, .updateParams q u ∈ r → q.minRecharge ≤ params.minRecharge

def NoneLost (node : ClientNode) (ops : List Op) : Prop :=
  ∀ pre p t post, ops = pre ++ .updateParams p t :: post → ¬ Lost (run node pre) p t

theorem run_append (pre : List Op) (op : Op) (post : List Op) :
    run node (pre ++ op :: post) = run (step (run node pre) op) post := by
  unfold run
  rw [foldl_append]
  rfl

theorem NoneLost.of_append {pre post : List Op} (h : NoneLost node (pre ++ post)) :
    NoneLost node pre := by
  rintro l p t r rfl
  exact h l p t (r ++ post) (by simp)

/-- The entry was requested, and unless requests are lost nothing higher since. -/
def Requested (node : ClientNode) (ops : List Op) (s : ScheduledUpdate) : Prop :=
  ∃ l t r, ops = l ++ .updateParams s.params t :: r ∧ t + decParamDelay = s.time ∧
    (NoneLost node ops → ∀ q u, .updateParams q u ∈ r → q.minRecharge ≤ s.params.minRecharge)

theorem Requested.concat {ops : List Op} {op : Op} {s : ScheduledUpdate}
    (h : Requested node ops s) (hop : NoneLost node (ops ++ [op]) →
      ∀ q u, op = .updateParams q u → q.minRecharge ≤ s.params.minRecharge) :
    Requested node (ops ++ [op]) s := by
  obtain ⟨l, t, r, rfl, ht, hr⟩ := h
  refine ⟨l, t, r ++ [op], by simp, ht, fun hn q u hmem => ?_⟩
  obtain hmem | hmem := mem_append.1 hmem
  · exact hr hn.of_append q u hmem
  · exact hop hn q u (mem_singleton.1 hmem).symm

theorem run_requested (hnode : node.updateSchedule = []) (ops : List Op) :
    ∀ s ∈ (run node ops).updateSchedule, Requested node ops s := by
  induction ops using reverseRecOn with
  | nil =>
    intro s hs
    rw [run, foldl_nil, hnode] at hs
    cases hs
  | append_singleton ops op ih =>
    intro s hs
    rw [run_append] at hs
    have hupd : ∀ now, s ∈ ((run node ops).update now).updateSchedule → Requested node ops s :=
      fun now h => ih s ((dropWhile_sublist _).subset (update_schedule ▸ h))
    cases op with
    | update now => exact (hupd now hs).concat nofun
    | updateParams p now =>
      obtain rfl | ⟨hs, hle⟩ := mem_UpdateParams hs
      · exact ⟨ops, now, [], rfl, rfl, nofun⟩
      refine (hupd now hs).concat ?_
      rintro hn q u ⟨⟩
      exact hle (hn ops p now [] rfl)

theorem run_updates_last (times : List Int) : (run node (times.map .update)).last = node.last := by
  induction times generalizing node with
  | nil => rfl
  | cons t times ih => exact ih.trans (applySchedule_spec node.updateSchedule node).2.1

theorem run_settled (hnode : node.updateSchedule = []) {pre : List Op} {t : Int}
    (hpre : ∀ op ∈ pre, op.time ≤ t) (times : List Int) (hnow : t + decParamDelay ≤ now) :
    let node' := run node (pre ++ .updateParams p t :: (times ++ [now]).map .update)
    node'.updateSchedule = [] ∧ (node'.params = p ↔ ¬ Lost (run node pre) p t) := by
  have hlast : (run node (pre ++ .updateParams p t :: (times ++ [now]).map .update)).last =
      ((run node pre).UpdateParams p t).last := by
    rw [run_append]
    exact run_updates_last _
  have hsched : (run node (pre ++ .updateParams p t ::
      (times ++ [now]).map .update)).updateSchedule = [] := by
    rw [map_append, ← cons_append, ← append_assoc, map_singleton, run_append]
    refine update_schedule.trans (dropWhile_eq_nil_iff.2 fun s hs => ?_)
    obtain ⟨l, u, r, hops, hu, -⟩ := run_requested hnode _ s hs
    have hmem : Op.updateParams s.params u ∈ pre ++ .updateParams p t :: times.map .update := by
      rw [hops]
      simp
    have hle : u ≤ t := by
      simp only [mem_append, mem_cons, mem_map, reduceCtorEq, and_false, exists_false, or_false]
        at hmem
      obtain h | h := hmem
      · exact hpre _ h
      cases h
      exact Int.le_refl _
    rw [decide_eq_true_eq]
    omega
  refine ⟨hsched, ?_⟩
  rw [← UpdateParams_last, ← hlast, ClientNode.last, hsched]
  rfl

/-- **The last parameters win, and none are lowered early**, in a sequence of calls exactly if no
request is lost. -/
theorem params_prevail_iff (params : ServerParams) (now : Int) (ops : List Op)
    (htimes : (ops.map Op.time).Pairwise (· ≤ ·)) :
    LastWins (newClientNode params now) ops ∧ LowersLate (newClientNode params now) ops ↔
      NoneLost (newClientNode params now) ops := by
  have hpre : ∀ pre op post, ops = pre ++ op :: post → ∀ x ∈ pre, x.time ≤ op.time := by
    rintro pre op post rfl x hx
    rw [map_append, pairwise_append] at htimes
    exact htimes.2.2 _ (mem_map_of_mem hx) _ mem_cons_self
  have hempty : (newClientNode params now).updateSchedule = [] := rfl
  constructor
  · rintro ⟨hwins, -⟩ pre p t post hops
    have h := hwins pre p t post hops [] _ (Int.le_refl _)
    exact (run_settled hempty (hpre _ _ _ hops) [] (Int.le_refl _)).2.1 h.1
  intro hnone
  refine ⟨fun pre p t post hops times u hu => ?_, ?_⟩
  · obtain ⟨hsched, hiff⟩ := run_settled hempty (hpre _ _ _ hops) times hu
    exact ⟨hiff.2 (hnone pre p t post hops), hsched⟩
  rintro pre op post _ rfl rfl hlt
  obtain h | ⟨s, hs, hle, heq⟩ := update_params
  · rw [h] at hlt
    exact absurd hlt (BitVec.lt_irrefl _)
  obtain ⟨l, u, r, hl, hu, hr⟩ := run_requested hempty pre s hs
  rw [← heq]
  exact ⟨l, s.params, u, r, hl, BitVec.le_refl _, by omega, hr hnone.of_append⟩

/-- The recharge is 10 and 5 is requested, then 7. It is 5 that becomes valid. -/
def requests : List Op := [.updateParams ⟨100, 5⟩ 0, .updateParams ⟨100, 7⟩ 1]

theorem params_prevail_iff_requests :
    LastWins (newClientNode ⟨100, 10⟩ 0) requests ∧
        LowersLate (newClientNode ⟨100, 10⟩ 0) requests ↔
      NoneLost (newClientNode ⟨100, 10⟩ 0) requests :=
  params_prevail_iff ⟨100, 10⟩ 0 requests (by decide)

theorem requests_lost :
    (run (newClientNode ⟨100, 10⟩ 0) (requests ++ [.update (1 + decParamDelay)])).params =
      ⟨100, 5⟩ := by
  decide +kernel

end Virbicoin.FlowControl
