import LStore.Base.Fuel

/-!
# Submission of commands to the connections of a depot

`hp_submit_tasks` hands the pending commands of a depot to its connections. A command goes to
the connection in use while that is below the limit of the workload, and then to the least busy
connection that is ready.

## Implementation notes

The lists run from the bottom of the stacks up. `check_hportal_connections` may close
connections, start new ones, which are not ready, and set `stable_conn`; how it does, if the
clock lets it run at all, is given. So is how a command is coalesced with others by its
`before_exec`: it then carries their ids. What the call counts and does not read is left out.
-/

namespace LStore.Gop.Portal

open List Base.Fuel

/-- `hconn_t`; its state is 1 while commands may be handed to it. -/
structure HConn where
  state : Int
  workload : Int

structure Command where
  gids : List Nat
  workload : Int
  retryCount : Int

structure HPortal where
  connList : List HConn
  pending : List Command
  stableConn : Int
  limboConn : Int
  dead : Int

def gidsOf (commands : List Command) : List Nat := commands.flatMap Command.gids

/-- The limit of the workload, and how the check of the connections and the coalescing go. -/
structure Call where
  maxWorkload : Int
  closed : Nat → Bool
  added : Nat
  stableConn : Int
  beforeExec : Command → List Command → Command × List Command
  length_beforeExec : ∀ gop rest, (beforeExec gop rest).2.length ≤ rest.length
  gids_beforeExec : ∀ gop rest, (beforeExec gop rest).1.gids ++ gidsOf (beforeExec gop rest).2 ~
    gop.gids ++ gidsOf rest

/-- Where the commands are in the end. -/
structure Outcome where
  connList : List HConn
  pending : List Command
  handed : List Command
  failed : List Command

/-- The loop over the commands: `c` is the position of the connection in use. -/
structure Submit where
  connList : List HConn
  c : Nat
  pending : List Command
  handed : List Command

def workloadAt (connList : List HConn) (c : Nat) : Int :=
  (connList[c]?.map HConn.workload).getD 0

def hconnLeastBusy (maxWorkload : Int) (connList : List HConn) : Option Nat :=
  (connList.zipIdx.foldl (fun best hc =>
    if hc.1.state = 1 ∧ hc.1.workload < best.1 then (hc.1.workload, some hc.2) else best)
    (maxWorkload + 1, none)).2

/-- A retry less for the command at the bottom, which fails without any left. -/
def retryBottom (connList : List HConn) (handed : List Command) : List Command → Outcome
  | [] => ⟨connList, [], handed, []⟩
  | gop :: rest =>
    if gop.retryCount - 1 ≤ 0 then ⟨connList, rest, handed, [gop]⟩
    else ⟨connList, { gop with retryCount := gop.retryCount - 1 } :: rest, handed, []⟩

namespace Call

variable (env : Call)

/-- `check_hportal_connections`. -/
def checked (hp : HPortal) : HPortal :=
  if 0 < hp.dead then hp
  else { hp with
    connList := (hp.connList.mapIdx fun i hc =>
      if hc.state = 1 ∧ env.closed i then { hc with state := 2 } else hc) ++
        replicate env.added ⟨0, 0⟩
    limboConn := hp.limboConn + env.added
    stableConn := env.stableConn }

/-- The command is put on the connection in use. -/
def hand (s : Submit) (gop : Command) (left : List Command) : Submit :=
  { s with
    connList := s.connList.modify s.c fun hc =>
      { hc with workload := hc.workload + gop.workload }
    pending := left
    handed := s.handed ++ [gop] }

/-- A turn of the loop, with the answers of the queues. -/
def turn (put : Command → Bool) (stableConn : Int) (s : Submit) : Submit ⊕ Outcome :=
  match s.pending with
  | [] => .inr ⟨s.connList, [], s.handed, []⟩
  | gop :: rest =>
    if workloadAt s.connList s.c < env.maxWorkload then
      let r := env.beforeExec gop rest
      if put r.1 then .inl (hand s r.1 r.2) else .inr ⟨s.connList, r.1 :: r.2, s.handed, []⟩
    else
      match hconnLeastBusy env.maxWorkload s.connList with
      | some c =>
        if env.maxWorkload < workloadAt s.connList c then
          .inr ⟨s.connList, gop :: rest, s.handed, []⟩
        else .inl { s with c := c }
      | none =>
        .inr (if stableConn = 0 ∧ s.connList = [] then retryBottom s.connList s.handed s.pending
          else ⟨s.connList, gop :: rest, s.handed, []⟩)

def submitLoop (put : Command → Bool) (stableConn : Int) : Nat → Submit → Except Fault Outcome :=
  loop fun s => .ok (env.turn put stableConn s)

def hpSubmitTasks (put : Command → Bool) (hp : HPortal) (fuel : Nat) : Except Fault Outcome :=
  if hp.pending = [] then .ok ⟨hp.connList, [], [], []⟩
  else
    let hp := env.checked hp
    if 0 < hp.dead ∧ hp.connList = [] ∧ hp.limboConn = 0 then
      .ok ⟨hp.connList, [], [], hp.pending⟩
    else
      match hconnLeastBusy env.maxWorkload hp.connList with
      | none =>
        .ok (if hp.stableConn = 0 then retryBottom hp.connList [] hp.pending
          else ⟨hp.connList, hp.pending, [], []⟩)
      | some c =>
        env.submitLoop put hp.stableConn fuel ⟨hp.connList, c, hp.pending, []⟩

/-- A command is pending, the connection in use has no room, and `c` is the least busy one. -/
structure Full (s : Submit) (c : Nat) : Prop where
  pending : s.pending ≠ []
  noRoom : env.maxWorkload ≤ workloadAt s.connList s.c
  best : hconnLeastBusy env.maxWorkload s.connList = some c

/-- Handing out the commands comes to one for which the least busy connection has exactly the
workload that is the limit. -/
inductive Stalls : Submit → Prop
  | full {s c} (hs : env.Full s c) (hload : workloadAt s.connList c = env.maxWorkload) : Stalls s
  | next {s c} (hs : env.Full s c) (hroom : workloadAt s.connList c < env.maxWorkload)
      (h : Stalls { s with c := c }) : Stalls s
  | hand {s gop rest} (hpending : s.pending = gop :: rest)
      (hroom : workloadAt s.connList s.c < env.maxWorkload)
      (h : Stalls (hand s (env.beforeExec gop rest).1 (env.beforeExec gop rest).2)) : Stalls s

end Call

variable {env : Call} {s : Submit} {hp : HPortal} {put : Command → Bool} {stable : Int}

/-- Every command is handed to a connection, failed or still pending. -/
def Accounted (ids : List Nat) (r : Outcome) : Prop :=
  gidsOf r.handed ++ gidsOf r.failed ++ gidsOf r.pending ~ ids

theorem accounted_retryBottom (connList : List HConn) (handed pending : List Command) :
    Accounted (gidsOf handed ++ gidsOf pending) (retryBottom connList handed pending) := by
  unfold retryBottom
  split
  · simp [Accounted, gidsOf]
  · split_ifs <;> simp [Accounted, gidsOf]

theorem submitLoop_inl {s'} (h : env.turn put stable s = .inl s') (n : Nat) :
    env.submitLoop put stable (n + 1) s = env.submitLoop put stable n s' := by
  simp only [Call.submitLoop, loop, h]

/-- The least busy connection is taken when the one in use has no room. -/
theorem turn_next {c} (h : env.Full s c) (hle : workloadAt s.connList c ≤ env.maxWorkload) :
    env.turn put stable s = .inl { s with c := c } := by
  obtain ⟨gop, rest, hs⟩ := exists_cons_of_ne_nil h.pending
  simp [Call.turn, hs, h.best, not_lt.mpr h.noRoom, not_lt.mpr hle]

/-- A loop that stalls uses up any fuel. -/
theorem submitLoop_of_stalls (h : env.Stalls s) (n : Nat) :
    env.submitLoop (fun _ => true) stable n s = .error .running := by
  induction n generalizing s with
  | zero => rfl
  | succ n ih =>
    cases h with
    | full hs hload =>
      -- the same connection is taken again, and still has no room
      rw [submitLoop_inl (turn_next hs hload.le)]
      exact ih (.full ⟨hs.pending, hload.ge, hs.best⟩ hload)
    | next hs hroom h =>
      rw [submitLoop_inl (turn_next hs hroom.le)]
      exact ih h
    | hand hpending hroom h =>
      rw [submitLoop_inl (by simp [Call.turn, hpending, hroom]; rfl)]
      exact ih h

/-- A loop that does not stall ends: a turn hands out a command, or finds a connection with
room for the next turn. -/
theorem submitLoop_ends (h : ¬env.Stalls s) :
    Ends False (fun fuel => env.submitLoop put stable fuel s)
      (Accounted (gidsOf s.handed ++ gidsOf s.pending)) := by
  refine Ends.loop (I := fun s' => ¬env.Stalls s' ∧
      gidsOf s'.handed ++ gidsOf s'.pending ~ gidsOf s.handed ++ gidsOf s.pending)
    wellFounded_lt (μ := fun s => 2 * s.pending.length +
      (decide (env.maxWorkload ≤ workloadAt s.connList s.c)).toNat) ?_ ⟨h, .rfl⟩
  rintro t ⟨ht, hids⟩
  refine Ends.ok ?_
  unfold Call.turn
  split
  case h_1 hs => simpa [Turn, Accounted, hs, gidsOf] using hids
  case h_2 gop rest hs =>
    have hcoalesced := env.gids_beforeExec gop rest
    have hlength := env.length_beforeExec gop rest
    rw [hs] at hids
    split
    case isTrue hroom =>
      have hkeep : gidsOf t.handed ++ ((env.beforeExec gop rest).1.gids ++
          gidsOf (env.beforeExec gop rest).2) ~ gidsOf s.handed ++ gidsOf s.pending :=
        (hcoalesced.append_left _).trans (by simpa [gidsOf] using hids)
      dsimp only
      split
      · refine ⟨⟨fun h => ht (.hand hs hroom h), by simpa [Call.hand, gidsOf] using hkeep⟩, ?_⟩
        refine (Nat.add_le_add_left (Bool.toNat_le _) _).trans_lt ?_
        simp only [Call.hand, hs, length_cons]
        omega
      · simpa [Turn, Accounted, gidsOf] using hkeep
    case isFalse hroom =>
      have hstop : Accounted (gidsOf s.handed ++ gidsOf s.pending)
          ⟨t.connList, gop :: rest, t.handed, []⟩ := by simpa [Accounted, gidsOf] using hids
      split
      case h_1 c hbest =>
        have hfull : env.Full t c := ⟨hs ▸ cons_ne_nil gop rest, not_lt.mp hroom, hbest⟩
        split_ifs with hover
        · exact hstop
        · rcases (not_lt.mp hover).lt_or_eq with hlt | heq
          · refine ⟨⟨fun h => ht (.next hfull hlt h), hs ▸ hids⟩, ?_⟩
            simp [hlt, hfull.noRoom]
          · exact absurd (.full hfull heq) ht
      case h_2 =>
        split_ifs
        · rw [hs]
          exact (accounted_retryBottom ..).trans hids
        · exact hstop

theorem pending_checked (env : Call) (hp : HPortal) : (env.checked hp).pending = hp.pending := by
  unfold Call.checked
  split_ifs <;> rfl

/-- With a command and a connection for it the call comes to its loop. -/
theorem hpSubmitTasks_eq {c} (hne : hp.pending ≠ [])
    (hbest : hconnLeastBusy env.maxWorkload (env.checked hp).connList = some c) (fuel : Nat) :
    env.hpSubmitTasks put hp fuel = env.submitLoop put (env.checked hp).stableConn fuel
      ⟨(env.checked hp).connList, c, hp.pending, []⟩ := by
  have hconns : (env.checked hp).connList ≠ [] := by
    intro hnil
    rw [hnil] at hbest
    cases hbest
  simp [Call.hpSubmitTasks, hne, hconns, hbest, pending_checked]

/-- Whatever the queues answer, a call returns with every command handed to a connection, failed
or still pending, if and only if handing out the commands does not stall. -/
theorem hpSubmitTasks_returns_iff (env : Call) (hp : HPortal) :
    (∀ put, Ends False (fun fuel => env.hpSubmitTasks put hp fuel)
      (Accounted (gidsOf hp.pending))) ↔
    ∀ c, hconnLeastBusy env.maxWorkload (env.checked hp).connList = some c →
      ¬env.Stalls ⟨(env.checked hp).connList, c, hp.pending, []⟩ := by
  constructor
  · intro h c hbest hstalls
    have hne : hp.pending ≠ [] := by
      cases hstalls with
      | full hs => exact hs.pending
      | next hs => exact hs.pending
      | hand hs => exact fun hnil => nomatch hnil.symm.trans hs
    obtain ⟨r, hr, -⟩ := (h fun _ => true).settles id
    refine not_settles_ok (e := .running) (fun m => ?_) hr
    rw [hpSubmitTasks_eq hne hbest]
    exact submitLoop_of_stalls hstalls m
  · intro h put
    by_cases hne : hp.pending = []
    · simp only [Call.hpSubmitTasks, hne, if_true]
      exact Ends.ok .rfl
    cases hbest : hconnLeastBusy env.maxWorkload (env.checked hp).connList with
    | some c =>
      simp only [hpSubmitTasks_eq hne hbest]
      exact submitLoop_ends (h c hbest)
    | none =>
      simp only [Call.hpSubmitTasks, hne, hbest, pending_checked, if_false]
      split_ifs
      · exact Ends.ok (by simp [Accounted, gidsOf])
      · exact Ends.ok (accounted_retryBottom _ [] _)
      · exact Ends.ok (by simp [Accounted, gidsOf])

/-- One connection that has exactly the limit of 1, and one command. -/
theorem hpSubmitTasks_spins :
    ∃ (env : Call) (hp : HPortal), env.maxWorkload = 1 ∧ hp.connList = [⟨1, 1⟩] ∧
      hp.pending = [⟨[0], 1, 3⟩] ∧
      ∀ fuel, env.hpSubmitTasks (fun _ => true) hp fuel = .error .running := by
  refine ⟨⟨1, fun _ => false, 0, 1, fun gop rest => (gop, rest), fun _ _ => le_rfl,
    fun _ _ => .rfl⟩, ⟨[⟨1, 1⟩], [⟨[0], 1, 3⟩], 1, 0, 0⟩, rfl, rfl, rfl, fun fuel => ?_⟩
  rw [hpSubmitTasks_eq (c := 0) (by simp) (by decide)]
  exact submitLoop_of_stalls (.full (c := 0) ⟨by simp, by decide, by decide⟩ (by decide)) fuel

end LStore.Gop.Portal
