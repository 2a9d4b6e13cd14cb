import RtosKernel.RtThread.Def
import RtosKernel.RtThread.Service

/-! # Timers (`timer.c`)

The timers that run are kept in skip lists: rows of doubly linked lists, of
which the last holds every timer of the list, in the order of their timeouts.
A timeout function runs with its timer on a list of its own and may make any
call itself, so a check of the timers is cut where it calls one. -/
namespace RtosKernel.RtThread.Timer
open Lib.Word RtThread.Def RtThread.Service

/-- What the build fixes: `RT_TIMER_SKIP_LIST_LEVEL`, `RT_TIMER_SKIP_LIST_MASK` and
`RT_USING_TIMER_SOFT`. -/
structure Board where
  skipListLevel : Nat
  skipListMask : Nat
  timerSoft : Bool
  level_pos : 0 < skipListLevel

/-- The row that holds every timer of a list, `RT_TIMER_SKIP_LIST_LEVEL - 1`. -/
def Board.bottom (c : Board) : Nat := c.skipListLevel - 1

/-- `RT_TICK_MAX / 2`. -/
def halfTickMax : Nat := 0xffffffff / 2

def flagActivated : BitVec 8 := 0x1

def flagPeriodic : BitVec 8 := 0x2

def flagSoftTimer : BitVec 8 := 0x4

/-- `struct rt_timer`, without the links of its rows. -/
structure RtTimer where
  flag : BitVec 8
  initTick : Nat
  timeoutTick : Nat
  deriving DecidableEq, Repr

def RtTimer.activated (t : RtTimer) : Prop := t.flag &&& flagActivated ≠ 0
  deriving Decidable

def RtTimer.periodic (t : RtTimer) : Prop := t.flag &&& flagPeriodic ≠ 0
  deriving Decidable

/-- `flag &= ~RT_TIMER_FLAG_ACTIVATED`. -/
def RtTimer.deactivate (t : RtTimer) : RtTimer := { t with flag := t.flag &&& ~~~flagActivated }

/-- `flag |= RT_TIMER_FLAG_ACTIVATED`. -/
def RtTimer.activate (t : RtTimer) : RtTimer := { t with flag := t.flag ||| flagActivated }

def timerInit (time : Nat) (flag : BitVec 8) : RtTimer :=
  { flag := flag &&& ~~~flagActivated, timeoutTick := 0, initTick := time }

/-- `_timer_list` and `_soft_timer_list`. -/
inductive Kind
  | hard
  | soft
  deriving DecidableEq, Repr

/-- The list nodes: the header of each row of a list, the node each timer has for
each row, and the local `list` of a check. -/
inductive Node (Tid : Type)
  | head (k : Kind) (lvl : Nat)
  | row (t : Tid) (lvl : Nat)
  | list (k : Kind)
  deriving DecidableEq

inductive Phase (Tid : Type)
  | idle
  | checking (currentTick : Nat)
  /-- in the timeout function of a timer -/
  | callback (t : Tid)
  deriving DecidableEq

/-- The timers. `started` is no data of the program: the timers that were started and have neither been stopped
nor expired since, in the order of their starts. -/
structure Timers (Tid : Type) where
  tick : Nat
  randomNr : Nat
  timer : Tid → RtTimer
  links : RtList (Node Tid)
  phase : Kind → Phase Tid
  started : List Tid

variable {Tid : Type} [DecidableEq Tid]

def Timers.set (s : Timers Tid) (t : Tid) (r : RtTimer) : Timers Tid :=
  { s with timer := Function.update s.timer t r }

/-- `rt_list_entry(p, struct rt_timer, row[..])`, where `p` is the node of a timer. -/
def entry : Node Tid → Option Tid
  | .row t _ => some t
  | .head _ _ => none
  | .list _ => none

/-- `row_head[row_lvl] + 1`: the same array, one row further. -/
def below : Node Tid → Node Tid
  | .head k lvl => .head k (lvl + 1)
  | .row t lvl => .row t (lvl + 1)
  | .list k => .list k

variable (c : Board)

def kindOf (r : RtTimer) : Kind :=
  if c.timerSoft ∧ r.flag &&& flagSoftTimer ≠ 0 then .soft else .hard

/-- The loop of `_timer_remove`. -/
def removeRows (t : Tid) : Nat → RtList (Node Tid) → RtList (Node Tid)
  | 0, m => m
  | lvl + 1, m => rtListRemove (removeRows t lvl m) (.row t lvl)

def timerRemove (s : Timers Tid) (t : Tid) : Timers Tid :=
  { s with links := removeRows t c.skipListLevel s.links }

/-! ## Starting and stopping -/

/-- Whether the walk of `rt_timer_start` goes on past a timer: it is due before the
new one, or at the same tick. -/
def passes (timeoutTick : Nat) (r : RtTimer) : Prop :=
  sub32 r.timeoutTick timeoutTick = 0 ∨ ¬ sub32 r.timeoutTick timeoutTick < halfTickMax

instance (timeoutTick : Nat) (r : RtTimer) : Decidable (passes timeoutTick r) :=
  inferInstanceAs (Decidable (_ ∨ _))

/-- The inner loop of `rt_timer_start`: the node of row `lvl` behind which the timer
belongs. -/
def walkRow (s : Timers Tid) (k : Kind) (timeoutTick lvl : Nat) : Nat → Node Tid → Option (Node Tid)
  | 0, _ => none
  | fuel + 1, rowHead =>
    if rowHead ≠ s.links.prev (.head k lvl) then do
      let t ← entry (s.links.next rowHead)
      if passes timeoutTick (s.timer t) then
        walkRow s k timeoutTick lvl fuel (s.links.next rowHead)
      else return rowHead
    else some rowHead

/-- The outer loop of `rt_timer_start`, over the last `n` rows, filling `row_head`. -/
def walkRows (fuel : Nat) (s : Timers Tid) (k : Kind) (timeoutTick : Nat) :
    Nat → Nat → (Nat → Node Tid) → Option (Nat → Node Tid)
  | 0, _, rowHead => some rowHead
  | n + 1, lvl, rowHead => do
    let node ← walkRow s k timeoutTick lvl fuel (rowHead lvl)
    let rowHead := Function.update rowHead lvl node
    walkRows fuel s k timeoutTick n (lvl + 1)
      (if n ≠ 0 then Function.update rowHead (lvl + 1) (below node) else rowHead)

/-- Link the rows above the last one, `lvl` of them, as far as `tst_nr` says. -/
def insertRows (rowHead : Nat → Node Tid) (t : Tid) : Nat → Nat → RtList (Node Tid) → RtList (Node Tid)
  | 0, _, m => m
  | lvl + 1, tstNr, m =>
    if tstNr &&& c.skipListMask = 0 then
      insertRows rowHead t lvl (tstNr >>> (add32 c.skipListMask 1 >>> 1))
        (rtListInsertAfter m (rowHead lvl) (.row t lvl))
    else m

variable [Fintype Tid]

/-- The fuel with which every walk of a row ends. -/
def enough (Tid : Type) [Fintype Tid] : Nat := Fintype.card Tid + 1

/-- The part of `rt_timer_start` that links the timer. -/
def insertTimer (s : Timers Tid) (t : Tid) : Option (Timers Tid) := do
  let k := kindOf c (s.timer t)
  let rowHead ← walkRows (enough Tid) s k (s.timer t).timeoutTick c.skipListLevel 0
    fun _ => .head k 0
  let randomNr := add32 s.randomNr 1
  let m := rtListInsertAfter s.links (rowHead c.bottom) (.row t c.bottom)
  return { s with randomNr, links := insertRows c rowHead t c.bottom randomNr m }

/-- `rt_timer_start`. Whether the timer thread is resumed is left out. -/
def rtTimerStart (s : Timers Tid) (t : Tid) : Option (Timers Tid) := do
  let s := timerRemove c s t
  let r := (s.timer t).deactivate
  let s := s.set t { r with timeoutTick := add32 s.tick r.initTick }
  let s ← insertTimer c s t
  return { s.set t (s.timer t).activate with started := s.started.erase t ++ [t] }

/-- `rt_timer_stop`, and whether it returns `RT_EOK`. -/
def rtTimerStop (s : Timers Tid) (t : Tid) : Timers Tid × Bool :=
  if ¬ (s.timer t).activated then ({ s with started := s.started.erase t }, false)
  else
    let s := timerRemove c s t
    ({ s.set t (s.timer t).deactivate with started := s.started.erase t }, true)

/-- The commands of `rt_timer_control`. -/
inductive Cmd
  | setTime
  | getTime
  | setOneshot
  | setPeriodic
  | getState
  | getRemainTime
  | other
  deriving DecidableEq, Repr

/-- `case RT_TIMER_CTRL_GET_REMAIN_TIME`: what `*arg` holds in the end. -/
def getRemainTime (r : RtTimer) (_arg : Nat) : Nat := r.timeoutTick

/-- `rt_timer_control`, where `arg` is what `*arg` holds before and after. -/
def rtTimerControl (s : Timers Tid) (t : Tid) (cmd : Cmd) (arg : Nat) : Option (Timers Tid × Nat) :=
  let r := s.timer t
  match cmd with
  | .getTime => some (s, r.initTick)
  | .setTime => do
    rtAssert (arg < halfTickMax)
    return (s.set t { r with initTick := arg }, arg)
  | .setOneshot => some (s.set t { r with flag := r.flag &&& ~~~flagPeriodic }, arg)
  | .setPeriodic => some (s.set t { r with flag := r.flag ||| flagPeriodic }, arg)
  | .getState =>
    let arg := if r.activated then flagActivated.toNat else 0
    -- there is no `break`
    some (s, getRemainTime r arg)
  | .getRemainTime => some (s, getRemainTime r arg)
  | .other => some (s, arg)

def Timers.setPhase (s : Timers Tid) (k : Kind) (p : Phase Tid) : Timers Tid :=
  { s with phase := Function.update s.phase k p }

/-- `rt_timer_check` and `rt_soft_timer_check` up to their loops. -/
def beginCheck (s : Timers Tid) (k : Kind) : Timers Tid :=
  { s.setPhase k (.checking s.tick) with links := rtListInit s.links (.list k) }

/-- The loop up to the call of a timeout function. `rt_timer_check` reads the tick before the loop and behind
each call, `rt_soft_timer_check` in each round. -/
def checkRound (s : Timers Tid) (k : Kind) (currentTick : Nat) : Option (Timers Tid) :=
  if rtListIsempty s.links (.head k c.bottom) then some (s.setPhase k .idle)
  else do
    let t ← entry (s.links.next (.head k c.bottom))
    let currentTick := match k with
      | .hard => currentTick
      | .soft => s.tick
    if sub32 currentTick (s.timer t).timeoutTick < halfTickMax then
      let s := timerRemove c s t
      let r := s.timer t
      let s := s.set t (if ¬ r.periodic then r.deactivate else r)
      return { s.setPhase k (.callback t) with
        links := rtListInsertAfter s.links (.list k) (.row t c.bottom)
        started := s.started.erase t }
    else return s.setPhase k .idle

/-- The loop behind the call of the timeout function of `t`. -/
def checkResume (s : Timers Tid) (k : Kind) (t : Tid) : Option (Timers Tid) :=
  let s := s.setPhase k (.checking s.tick)
  if rtListIsempty s.links (.list k) then some s
  else
    let s := { s with links := rtListRemove s.links (.row t c.bottom) }
    let r := s.timer t
    if r.periodic ∧ r.activated then rtTimerStart c (s.set t r.deactivate) t else some s

end RtosKernel.RtThread.Timer
