import Mathlib.Data.List.Induction
import Attesta.Foundation.HashTable
import Attesta.Foundation.Machine

/-! The accounting of SSE connections: a global counter and one counter per IP, updated by
acquires and drops in separate atomic steps. Any number of acquires and drops of any IPs are
under way at once, each cut at its atomic operations.
-/

namespace Attesta.Api

structure SseSlots (Ip : Type) where
  perIpCap : Nat
  globalCap : Nat
  global : Int
  perIp : HashTable Ip Int

namespace SseSlots

variable {Ip : Type}

def new (perIpCap globalCap : Nat) : SseSlots Ip := ⟨perIpCap, globalCap, 0, ∅⟩

/-- The first check of `try_acquire`: the global counter is loaded and compared with its cap. -/
def underGlobalCap (slots : SseSlots Ip) : Bool :=
  !(decide (slots.globalCap > 0) && decide (slots.global ≥ slots.globalCap))

/-- `self.global.fetch_add(1)`. -/
def fetchAdd (slots : SseSlots Ip) : SseSlots Ip := { slots with global := slots.global + 1 }

/-- `self.slots.global.fetch_sub(1)`. -/
def fetchSub (slots : SseSlots Ip) : SseSlots Ip := { slots with global := slots.global - 1 }

variable [DecidableEq Ip]

/-- The locked section of `try_acquire`: the entry of the IP is made if it is missing, checked
against the cap and counted up. The answer says whether the acquire goes on.
-/
def countIp (slots : SseSlots Ip) (ip : Ip) : SseSlots Ip × Bool :=
  let perIp :=
    match slots.perIp.lookup ip with
    | some _ => slots.perIp
    | none => slots.perIp.insert ip 0
  let count := (slots.perIp.lookup ip).getD 0
  if slots.perIpCap > 0 ∧ count ≥ slots.perIpCap then ({ slots with perIp := perIp }, false)
  else ({ slots with perIp := perIp.insert ip (count + 1) }, true)

/-- The locked section of `drop`: count down, and remove an entry that reaches zero. -/
def releaseIp (slots : SseSlots Ip) (ip : Ip) : SseSlots Ip :=
  match slots.perIp.lookup ip with
  | none => slots
  | some count =>
      let perIp := slots.perIp.insert ip (count - 1)
      { slots with perIp := if count - 1 ≤ 0 then perIp.erase ip else perIp }

/-- Where an acquire and its slot stand. -/
inductive Phase
  /-- Past the global check. -/
  | checked
  /-- Counted for its IP, before the global counter is counted up. -/
  | counted
  /-- The slot is held. -/
  | live
  /-- Dropped: the global counter is counted down, the one of the IP is not yet. -/
  | releasing
  /-- Refused for its IP, or dropped completely. -/
  | ended
  deriving DecidableEq

structure Task (Ip : Type) where
  ip : Ip
  phase : Phase
  deriving DecidableEq

/-- The counters and every acquire that has passed the global check. -/
structure State (Ip : Type) where
  slots : SseSlots Ip
  tasks : List (Task Ip)

def State.init (perIpCap globalCap : Nat) : State Ip := ⟨new perIpCap globalCap, []⟩

/-- The atomic operations of `try_acquire` (`load`, `count`, `add`) and of `drop` (`sub`,
`release`). A load that finds the cap reached refuses the acquire.
-/
inductive Action (Ip : Type)
  | load (ip : Ip)
  | count (i : Nat)
  | add (i : Nat)
  | sub (i : Nat)
  | release (i : Nat)

/-- Task `i`, if it is in the given phase. -/
def State.taskIn (s : State Ip) (i : Nat) (phase : Phase) : Option (Task Ip) :=
  s.tasks[i]?.filter (fun task => task.phase = phase)

/-- Task `i` moves on while the counters change. -/
def State.move (s : State Ip) (slots : SseSlots Ip) (i : Nat) (task : Task Ip) (phase : Phase)
    : State Ip :=
  ⟨slots, s.tasks.set i ⟨task.ip, phase⟩⟩

def step (s : State Ip) : Action Ip → Option (State Ip)
  | .load ip =>
      some (if s.slots.underGlobalCap then { s with tasks := s.tasks ++ [⟨ip, .checked⟩] } else s)
  | .count i => do
      let task ← s.taskIn i .checked
      let (slots, admitted) := s.slots.countIp task.ip
      some (s.move slots i task (if admitted then .counted else .ended))
  | .add i => do
      let task ← s.taskIn i .counted
      some (s.move s.slots.fetchAdd i task .live)
  | .sub i => do
      let task ← s.taskIn i .live
      some (s.move s.slots.fetchSub i task .releasing)
  | .release i => do
      let task ← s.taskIn i .releasing
      some (s.move (s.slots.releaseIp task.ip) i task .ended)

-----------------------------------------------------------------------------------------
-- What the counters stand for
-----------------------------------------------------------------------------------------

/-- The slots held at the moment. -/
def State.live (s : State Ip) : Nat := s.tasks.countP (fun task => task.phase = .live)

/-- The slots held by one IP. -/
def State.liveOf (s : State Ip) (ip : Ip) : Nat :=
  s.tasks.countP (fun task => decide (task.ip = ip) && decide (task.phase = .live))

/-- The task is counted for its IP. -/
def Phase.held : Phase → Bool
  | .counted | .live | .releasing => true
  | .checked | .ended => false

/-- The tasks counted for one IP. -/
def State.heldOf (s : State Ip) (ip : Ip) : Nat :=
  s.tasks.countP (fun task => decide (task.ip = ip) && task.phase.held)

/-- No acquire and no drop is in progress. -/
def State.Quiet (s : State Ip) : Prop :=
  ∀ task ∈ s.tasks, task.phase = .live ∨ task.phase = .ended

/-- The entry an IP should have for a number of held slots: none for zero. -/
def entryOf (held : Nat) : Option Int := if held = 0 then none else some held

/-- Through all intermediate states the global counter counts the live slots and the entry of
an IP the tasks counted for it, within the cap.
-/
structure State.Balanced (s : State Ip) : Prop where
  global : s.slots.global = s.live
  perIp : ∀ ip, s.slots.perIp.lookup ip = entryOf (s.heldOf ip)
  capped : 0 < s.slots.perIpCap → ∀ ip, s.heldOf ip ≤ s.slots.perIpCap

omit [DecidableEq Ip] in
theorem taskIn_eq_some {s : State Ip} {i : Nat} {phase : Phase} {task : Task Ip}
    : s.taskIn i phase = some task ↔ s.tasks[i]? = some task ∧ task.phase = phase := by
  simp [State.taskIn, Option.filter_eq_some_iff]

/-- Everything a step can do. -/
inductive Effect (s : State Ip) : Action Ip → State Ip → Prop
  | refused (ip : Ip) (reached : s.slots.underGlobalCap = false) : Effect s (.load ip) s
  | loaded (ip : Ip) (under : s.slots.underGlobalCap = true)
    : Effect s (.load ip) { s with tasks := s.tasks ++ [⟨ip, .checked⟩] }
  | counted {i : Nat} {task : Task Ip} (found : s.tasks[i]? = some task)
      (phase : task.phase = .checked)
    : Effect s (.count i)
        (s.move (s.slots.countIp task.ip).1 i task
          (if (s.slots.countIp task.ip).2 then .counted else .ended))
  | added {i : Nat} {task : Task Ip} (found : s.tasks[i]? = some task)
      (phase : task.phase = .counted)
    : Effect s (.add i) (s.move s.slots.fetchAdd i task .live)
  | dropped {i : Nat} {task : Task Ip} (found : s.tasks[i]? = some task)
      (phase : task.phase = .live)
    : Effect s (.sub i) (s.move s.slots.fetchSub i task .releasing)
  | released {i : Nat} {task : Task Ip} (found : s.tasks[i]? = some task)
      (phase : task.phase = .releasing)
    : Effect s (.release i) (s.move (s.slots.releaseIp task.ip) i task .ended)

theorem step_effect {s t : State Ip} {action : Action Ip} (stepped : step s action = some t)
    : Effect s action t := by
  cases action with
  | load ip =>
      obtain rfl := Option.some.inj stepped
      split
      next under => exact .loaded ip under
      next reached => exact .refused ip (by simpa using reached)
  | _ i =>
      obtain ⟨task, here, moved⟩ := Option.bind_eq_some_iff.mp stepped
      obtain ⟨found, phase⟩ := taskIn_eq_some.mp here
      obtain rfl := Option.some.inj moved
      constructor <;> assumption

omit [DecidableEq Ip] in
/-- Replacing one task moves a count by what the old and the new task contribute. -/
theorem countP_set {p : Task Ip → Bool} {tasks : List (Task Ip)} {i : Nat} {old : Task Ip}
    (new : Task Ip) (found : tasks[i]? = some old)
    : (tasks.set i new).countP p + (p old).toNat = tasks.countP p + (p new).toNat := by
  induction tasks generalizing i with
  | nil => cases found
  | cons head rest ih =>
      cases i with
      | zero =>
          obtain rfl := Option.some.inj found
          simp only [List.set_cons_zero, List.countP_cons]
          cases p head <;> cases p new <;> simp
      | succ i =>
          have later := ih (by simpa using found)
          simp only [List.set_cons_succ, List.countP_cons]
          omega

section Move

variable {s : State Ip} {i : Nat} {task : Task Ip} (found : s.tasks[i]? = some task)
include found

omit [DecidableEq Ip] in
theorem live_move (slots : SseSlots Ip) (phase : Phase)
    : (s.move slots i task phase).live + (decide (task.phase = .live)).toNat
      = s.live + (decide (phase = .live)).toNat :=
  countP_set ⟨task.ip, phase⟩ found

/-- Only the counts of the task's own IP move. -/
theorem heldOf_move (slots : SseSlots Ip) (phase : Phase) (ip : Ip)
    : (s.move slots i task phase).heldOf ip
        + (decide (task.ip = ip) && task.phase.held).toNat
      = s.heldOf ip + (decide (task.ip = ip) && phase.held).toNat :=
  countP_set ⟨task.ip, phase⟩ found

end Move

theorem entryOf_getD (held : Nat) : (entryOf held).getD 0 = held := by
  unfold entryOf
  split <;> simp [*]

/-- With the entry of an IP in order, the locked section of an acquire either refuses and
changes nothing or counts one more.
-/
theorem countIp_spec {slots : SseSlots Ip} {ip : Ip} {held : Nat}
    (entry : slots.perIp.lookup ip = entryOf held)
    : (slots.countIp ip = (slots, false) ∧ 0 < slots.perIpCap ∧ slots.perIpCap ≤ held)
      ∨ ∃ perIp, slots.countIp ip = ({ slots with perIp := perIp }, true)
          ∧ (0 < slots.perIpCap → held < slots.perIpCap)
          ∧ perIp.lookup ip = entryOf (held + 1)
          ∧ ∀ other, other ≠ ip → perIp.lookup other = slots.perIp.lookup other := by
  have count : (slots.perIp.lookup ip).getD 0 = held := by rw [entry, entryOf_getD]
  by_cases reached : slots.perIpCap > 0 ∧ slots.perIpCap ≤ held
  · refine Or.inl ⟨?_, reached⟩
    have present : held ≠ 0 := by omega
    simp [countIp, entry, entryOf, present, reached]
  · refine Or.inr ?_
    have free : ¬ (slots.perIpCap > 0 ∧ (slots.perIp.lookup ip).getD 0 ≥ slots.perIpCap) := by
      rw [count]
      omega
    rw [countIp, if_neg free]
    refine ⟨_, rfl, by omega, ?_, ?_⟩
    · rw [AList.lookup_insert, count]
      simp [entryOf]
    · intro other apart
      rw [AList.lookup_insert_ne apart]
      split
      · rfl
      · rw [AList.lookup_insert_ne apart]

/-- The locked section of a drop counts one less. -/
theorem releaseIp_spec {slots : SseSlots Ip} {ip : Ip} {held : Nat}
    (entry : slots.perIp.lookup ip = entryOf (held + 1))
    : ∃ perIp, slots.releaseIp ip = { slots with perIp := perIp }
        ∧ perIp.lookup ip = entryOf held
        ∧ ∀ other, other ≠ ip → perIp.lookup other = slots.perIp.lookup other := by
  have found : slots.perIp.lookup ip = some ((held : Int) + 1) := by simpa [entryOf] using entry
  simp only [releaseIp, found, Int.add_sub_cancel]
  refine ⟨_, rfl, ?_, ?_⟩
  · by_cases last : held = 0
    · simp [last, entryOf]
    · simp [last, entryOf]
  · intro other apart
    split
    · rw [AList.lookup_erase_ne apart, AList.lookup_insert_ne apart]
    · rw [AList.lookup_insert_ne apart]

theorem balanced_init (perIpCap globalCap : Nat)
    : (State.init perIpCap globalCap : State Ip).Balanced where
  global := rfl
  perIp _ := rfl
  capped _ _ := Nat.zero_le _

/-- A task that moves on keeps the balance if the counters move with it. -/
theorem State.Balanced.move {s : State Ip} (h : s.Balanced) {i : Nat} {task : Task Ip}
    (found : s.tasks[i]? = some task) {slots : SseSlots Ip} {phase : Phase}
    (caps : slots.perIpCap = s.slots.perIpCap)
    (global : slots.global + (decide (task.phase = .live)).toNat
      = s.slots.global + (decide (phase = .live)).toNat)
    (own : slots.perIp.lookup task.ip = entryOf ((s.move slots i task phase).heldOf task.ip))
    (others : ∀ ip, ip ≠ task.ip → slots.perIp.lookup ip = s.slots.perIp.lookup ip)
    (room : 0 < slots.perIpCap → (s.move slots i task phase).heldOf task.ip ≤ slots.perIpCap)
    : (s.move slots i task phase).Balanced := by
  have apart (ip : Ip) (other : ip ≠ task.ip)
      : (s.move slots i task phase).heldOf ip = s.heldOf ip := by
    simpa [Ne.symm other] using heldOf_move found slots phase ip
  refine ⟨?_, ?_, ?_⟩
  · have moved := live_move found slots phase
    have before := h.global
    change slots.global = _
    omega
  · intro ip
    by_cases same : ip = task.ip
    · exact same ▸ own
    · rw [apart ip same, ← h.perIp]
      exact others ip same
  · intro positive ip
    by_cases same : ip = task.ip
    · exact same ▸ room positive
    · rw [apart ip same]
      exact caps ▸ h.capped (caps ▸ positive) ip

/-- A task that stays counted, or stays uncounted, keeps the balance with the same table. -/
theorem State.Balanced.keep {s : State Ip} (h : s.Balanced) {i : Nat} {task : Task Ip}
    (found : s.tasks[i]? = some task) {slots : SseSlots Ip} {phase : Phase}
    (caps : slots.perIpCap = s.slots.perIpCap) (table : slots.perIp = s.slots.perIp)
    (global : slots.global + (decide (task.phase = .live)).toNat
      = s.slots.global + (decide (phase = .live)).toNat)
    (held : task.phase.held = phase.held)
    : (s.move slots i task phase).Balanced := by
  have same : (s.move slots i task phase).heldOf task.ip = s.heldOf task.ip := by
    simpa [held] using heldOf_move found slots phase task.ip
  refine h.move found caps global ?_ (fun _ _ => by rw [table]) (fun positive => ?_)
  · rw [same, table]
    exact h.perIp task.ip
  · rw [same, caps]
    exact h.capped (caps ▸ positive) task.ip

/-- A new task is not counted anywhere yet. -/
theorem State.Balanced.load {s : State Ip} (h : s.Balanced) (ip : Ip)
    : State.Balanced { s with tasks := s.tasks ++ [⟨ip, .checked⟩] } where
  global := by simpa [State.live, List.countP_append] using h.global
  perIp other := by simpa [State.heldOf, List.countP_append, Phase.held] using h.perIp other
  capped positive other := by
    simpa [State.heldOf, List.countP_append, Phase.held] using h.capped positive other

/-- The locked section of an acquire keeps the balance, by its two outcomes. -/
theorem State.Balanced.count {s : State Ip} (h : s.Balanced) {i : Nat} {task : Task Ip}
    (found : s.tasks[i]? = some task) (phase : task.phase = .checked)
    : (s.move (s.slots.countIp task.ip).1 i task
        (if (s.slots.countIp task.ip).2 then .counted else .ended)).Balanced := by
  rcases countIp_spec (h.perIp task.ip) with refused | admitted
  · rw [refused.1]
    exact h.keep found rfl rfl (by simp [phase]) (by rw [phase]; rfl)
  · obtain ⟨perIp, same, room, own, others⟩ := admitted
    rw [same]
    have more : (s.move { s.slots with perIp := perIp } i task .counted).heldOf task.ip
        = s.heldOf task.ip + 1 := by
      simpa [phase, Phase.held] using
        heldOf_move found { s.slots with perIp := perIp } .counted task.ip
    refine h.move found rfl (by simp [phase]) (more ▸ own) others (fun positive => ?_)
    exact more ▸ room positive

/-- The locked section of a drop keeps the balance. -/
theorem State.Balanced.release {s : State Ip} (h : s.Balanced) {i : Nat} {task : Task Ip}
    (found : s.tasks[i]? = some task) (phase : task.phase = .releasing)
    : (s.move (s.slots.releaseIp task.ip) i task .ended).Balanced := by
  have fewer : (s.move (s.slots.releaseIp task.ip) i task .ended).heldOf task.ip + 1
      = s.heldOf task.ip := by
    simpa [phase, Phase.held] using
      heldOf_move found (s.slots.releaseIp task.ip) .ended task.ip
  have entry := h.perIp task.ip
  rw [← fewer] at entry
  obtain ⟨perIp, same, own, others⟩ := releaseIp_spec entry
  rw [same] at own fewer ⊢
  refine h.move found rfl (by simp [phase]) own others (fun positive => ?_)
  have bound := h.capped positive task.ip
  change _ ≤ s.slots.perIpCap
  omega

/-- Every atomic operation keeps the balance. -/
theorem step_balanced {s t : State Ip} {action : Action Ip} (h : s.Balanced)
    (stepped : step s action = some t)
    : t.Balanced := by
  cases step_effect stepped with
  | refused ip => exact h
  | loaded ip => exact h.load ip
  | counted found phase => exact h.count found phase
  | added found phase =>
      exact h.keep found rfl rfl (by simp [phase, fetchAdd]) (by rw [phase]; rfl)
  | dropped found phase =>
      exact h.keep found rfl rfl (by simp [phase, fetchSub]) (by rw [phase]; rfl)
  | released found phase => exact h.release found phase

theorem caps_countIp (slots : SseSlots Ip) (ip : Ip)
    : (slots.countIp ip).1.perIpCap = slots.perIpCap
      ∧ (slots.countIp ip).1.globalCap = slots.globalCap := by
  simp only [countIp]
  split <;> split <;> exact ⟨rfl, rfl⟩

theorem caps_releaseIp (slots : SseSlots Ip) (ip : Ip)
    : (slots.releaseIp ip).perIpCap = slots.perIpCap
      ∧ (slots.releaseIp ip).globalCap = slots.globalCap := by
  unfold releaseIp
  split <;> exact ⟨rfl, rfl⟩

theorem step_caps {s t : State Ip} {action : Action Ip} (stepped : step s action = some t)
    : t.slots.perIpCap = s.slots.perIpCap ∧ t.slots.globalCap = s.slots.globalCap := by
  cases step_effect stepped with
  | refused | loaded | added | dropped => exact ⟨rfl, rfl⟩
  | @counted i task => exact caps_countIp s.slots task.ip
  | @released i task => exact caps_releaseIp s.slots task.ip

theorem run_caps {perIpCap globalCap : Nat} {actions : List (Action Ip)} {s : State Ip}
    (ran : Machine.run step (State.init perIpCap globalCap) actions = some s)
    : s.slots.perIpCap = perIpCap ∧ s.slots.globalCap = globalCap := by
  have kept (s : State Ip) (action : Action Ip) (t : State Ip)
      (h : s.slots.perIpCap = perIpCap ∧ s.slots.globalCap = globalCap)
      (stepped : step s action = some t)
      : t.slots.perIpCap = perIpCap ∧ t.slots.globalCap = globalCap :=
    ⟨(step_caps stepped).1.trans h.1, (step_caps stepped).2.trans h.2⟩
  exact Machine.invariant kept ⟨rfl, rfl⟩ ran

theorem run_balanced {perIpCap globalCap : Nat} {actions : List (Action Ip)} {s : State Ip}
    (ran : Machine.run step (State.init perIpCap globalCap) actions = some s)
    : s.Balanced :=
  Machine.invariant (fun _ _ _ => step_balanced) (balanced_init perIpCap globalCap) ran

theorem State.heldOf_of_quiet {s : State Ip} (quiet : s.Quiet) (ip : Ip)
    : s.heldOf ip = s.liveOf ip := by
  refine List.countP_congr fun task member => ?_
  rcases quiet task member with live | ended
  · simp [live, Phase.held]
  · simp [ended, Phase.held]

theorem State.liveOf_le_heldOf (s : State Ip) (ip : Ip) : s.liveOf ip ≤ s.heldOf ip := by
  refine List.countP_mono_left fun task _ live => ?_
  simp only [Bool.and_eq_true, decide_eq_true_eq] at live ⊢
  exact ⟨live.1, by rw [live.2]; rfl⟩

/-- An entry of the table counts at least one slot. -/
theorem State.Balanced.entry_pos {s : State Ip} (h : s.Balanced) {ip : Ip} {count : Int}
    (found : s.slots.perIp.lookup ip = some count)
    : 0 < count := by
  rw [h.perIp, entryOf] at found
  split at found
  · cases found
  next some =>
    rw [← Option.some.inj found]
    omega

/-- The atomic operations at which an acquire of an IP is refused. -/
def Refuses (s : State Ip) (action : Action Ip) (t : State Ip) : Prop :=
  match action with
  | .load _ => s.slots.underGlobalCap = false
  | .count i => ∃ task, t.tasks[i]? = some task ∧ task.phase = .ended
  | _ => False

/-- The global check touches no counter, and a refusal under the lock undoes nothing because it
has changed nothing.
-/
theorem State.Balanced.slots_of_refused {s t : State Ip} {action : Action Ip} (h : s.Balanced)
    (stepped : step s action = some t) (refused : Refuses s action t)
    : t.slots = s.slots := by
  cases step_effect stepped with
  | refused | loaded => rfl
  | @counted i task found phase =>
      obtain ⟨bound, _⟩ := List.getElem?_eq_some_iff.mp found
      rcases countIp_spec (h.perIp task.ip) with full | admitted
      · rw [full.1]
        rfl
      · obtain ⟨perIp, same, _⟩ := admitted
        obtain ⟨next, there, ended⟩ := refused
        simp only [State.move, List.getElem?_set_self bound, same, if_true] at there
        rw [← Option.some.inj there] at ended
        cases ended
  | added | dropped | released => cases refused

/-- The accounting of SSE slots balances. In every state of every interleaving of acquires and
drops no IP holds more slots than its cap, the next refusal of an acquire changes no counter
and leaves no entry, and there is no entry without a slot; and whenever nothing is in progress
both counters are exactly the numbers of live slots.
-/
theorem accounting_balances {perIpCap globalCap : Nat} {actions : List (Action Ip)}
    {s : State Ip} (ran : Machine.run step (State.init perIpCap globalCap) actions = some s)
    : (0 < perIpCap → ∀ ip, s.liveOf ip ≤ perIpCap)
      ∧ (∀ action t, step s action = some t → Refuses s action t → t.slots = s.slots)
      ∧ (∀ ip count, s.slots.perIp.lookup ip = some count → 0 < count)
      ∧ (s.Quiet → s.slots.global = s.live
          ∧ ∀ ip, s.slots.perIp.lookup ip = entryOf (s.liveOf ip)) := by
  have balanced := run_balanced ran
  have cap := (run_caps ran).1
  refine ⟨?_, ?_, fun _ _ => balanced.entry_pos, fun quiet => ⟨balanced.global, fun ip => ?_⟩⟩
  · intro positive ip
    rw [← cap] at positive ⊢
    exact Nat.le_trans (s.liveOf_le_heldOf ip) (balanced.capped positive ip)
  · exact fun action t => balanced.slots_of_refused
  · rw [← s.heldOf_of_quiet quiet ip]
    exact balanced.perIp ip

theorem accounting_balances_two
    : ∃ s,
        Machine.run step (State.init 1 0 : State Nat)
          [.load 1, .load 1, .count 0, .count 1, .add 0, .load 2, .sub 0, .count 2, .add 2,
            .release 0]
          = some s
        ∧ s.slots.global = s.live
        ∧ s.slots.perIp.lookup 1 = entryOf (s.liveOf 1) := by
  have observed
      : (Machine.run step (State.init 1 0 : State Nat)
          [.load 1, .load 1, .count 0, .count 1, .add 0, .load 2, .sub 0, .count 2, .add 2,
            .release 0]).map State.tasks
        = some [⟨1, .ended⟩, ⟨1, .ended⟩, ⟨2, .live⟩] := by
    decide +kernel
  obtain ⟨s, ran, tasks⟩ := Option.map_eq_some_iff.mp observed
  have quiet : s.Quiet := by
    intro task member
    rw [tasks] at member
    simp at member
    rcases member with rfl | rfl <;> simp
  obtain ⟨_, _, _, balance⟩ := accounting_balances ran
  exact ⟨s, ran, (balance quiet).1, (balance quiet).2 1⟩

-----------------------------------------------------------------------------------------
-- The global cap
-----------------------------------------------------------------------------------------

/-- No more slots are held than the global cap allows. -/
def State.WithinGlobalCap (s : State Ip) : Prop := s.live ≤ s.slots.globalCap

/-- The global counter is counted up only if its check would still pass. -/
def PassesAgain (s : State Ip) (action : Action Ip) : Prop :=
  ∀ i, action = .add i → s.slots.underGlobalCap = true

instance (s : State Ip) (action : Action Ip) : Decidable (PassesAgain s action) :=
  match action with
  | .add i => decidable_of_iff (s.slots.underGlobalCap = true) (by simp [PassesAgain])
  | .load _ | .count _ | .sub _ | .release _ => isTrue (fun i other => by cases other)

theorem State.Balanced.underGlobalCap_iff {s : State Ip} (h : s.Balanced)
    (capped : 0 < s.slots.globalCap)
    : s.slots.underGlobalCap = true ↔ s.live < s.slots.globalCap := by
  have same := h.global
  simp only [underGlobalCap, Bool.not_eq_true', Bool.and_eq_false_iff, decide_eq_false_iff_not]
  omega

/-- Only the increment of the global counter makes a slot live. -/
theorem live_of_step {s t : State Ip} {action : Action Ip} (stepped : step s action = some t)
    : (∃ i, action = .add i ∧ t.live = s.live + 1)
      ∨ (∀ i, action ≠ .add i) ∧ t.live ≤ s.live := by
  cases step_effect stepped with
  | refused ip => exact Or.inr ⟨nofun, le_rfl⟩
  | loaded ip => exact Or.inr ⟨nofun, by simp [State.live, List.countP_append]⟩
  | @added i task found phase =>
      exact Or.inl ⟨i, rfl, by simpa [phase] using live_move found s.slots.fetchAdd .live⟩
  | @counted i task found phase =>
      have count := live_move found (s.slots.countIp task.ip).1
        (if (s.slots.countIp task.ip).2 then .counted else .ended)
      have other : (if (s.slots.countIp task.ip).2 then Phase.counted else .ended) ≠ .live := by
        split <;> nofun
      exact Or.inr ⟨nofun, by simpa [phase, other] using Nat.le_of_eq count⟩
  | dropped found phase =>
      have count := live_move found s.slots.fetchSub .releasing
      simp only [phase, decide_true, Bool.toNat_true] at count
      exact Or.inr ⟨nofun, by simp at count; omega⟩
  | @released i task found phase =>
      have count := live_move found (s.slots.releaseIp task.ip) .ended
      exact Or.inr ⟨nofun, by simpa [phase] using Nat.le_of_eq count⟩

/-- The increment of the global counter exceeds the cap exactly if the check would fail by then.
-/
theorem step_withinGlobalCap_iff {s t : State Ip} {action : Action Ip}
    (capped : 0 < s.slots.globalCap) (h : s.Balanced) (within : s.WithinGlobalCap)
    (stepped : step s action = some t)
    : t.WithinGlobalCap ↔ PassesAgain s action := by
  rw [State.WithinGlobalCap, (step_caps stepped).2]
  rcases live_of_step stepped with added | other
  · obtain ⟨i, rfl, count⟩ := added
    simp only [PassesAgain, Action.add.injEq, forall_eq', h.underGlobalCap_iff capped, count]
    omega
  · refine iff_of_true (le_trans other.2 within) ?_
    exact fun i same => absurd same (other.1 i)

theorem run_withinGlobalCap_iff {perIpCap globalCap : Nat} (capped : 0 < globalCap)
    {actions : List (Action Ip)} {s : State Ip}
    (ran : Machine.run step (State.init perIpCap globalCap) actions = some s)
    : Machine.Always step State.WithinGlobalCap (State.init perIpCap globalCap) actions
      ↔ Machine.Along step PassesAgain (State.init perIpCap globalCap) actions := by
  have kept (s : State Ip) (action : Action Ip) (t : State Ip)
      (h : s.Balanced ∧ s.slots.globalCap = globalCap) (stepped : step s action = some t)
      : t.Balanced ∧ t.slots.globalCap = globalCap :=
    ⟨step_balanced h.1 stepped, (step_caps stepped).2.trans h.2⟩
  refine Machine.always_iff_along_of_step State.WithinGlobalCap PassesAgain kept ?_
    ⟨balanced_init perIpCap globalCap, rfl⟩ (Nat.zero_le _) ran
  intro s action t h within stepped
  exact step_withinGlobalCap_iff (h.2 ▸ capped) h.1 within stepped

/-- The task has passed the global check and is not counted in the global counter yet. -/
def Phase.pending : Phase → Bool
  | .checked | .counted => true
  | _ => false

/-- The acquires between their check and their increment. -/
def State.pending (s : State Ip) : Nat := s.tasks.countP (fun task => task.phase.pending)

/-- No acquire starts while another one is between its check and its increment. -/
def Alone (s : State Ip) (action : Action Ip) : Prop :=
  ∀ ip, action = .load ip → s.pending = 0

/-- At most one acquire is past its check, and while it is the check still passes. -/
def Roomy (s : State Ip) : Prop :=
  s.pending ≤ 1 ∧ (s.pending ≠ 0 → s.slots.underGlobalCap = true)

omit [DecidableEq Ip] in
theorem pending_move {s : State Ip} {i : Nat} {task : Task Ip}
    (found : s.tasks[i]? = some task) (slots : SseSlots Ip) (phase : Phase)
    : (s.move slots i task phase).pending + task.phase.pending.toNat
      = s.pending + phase.pending.toNat :=
  countP_set ⟨task.ip, phase⟩ found

theorem underGlobalCap_countIp (slots : SseSlots Ip) (ip : Ip)
    : (slots.countIp ip).1.underGlobalCap = slots.underGlobalCap := by
  simp only [countIp]
  split <;> split <;> rfl

theorem underGlobalCap_releaseIp (slots : SseSlots Ip) (ip : Ip)
    : (slots.releaseIp ip).underGlobalCap = slots.underGlobalCap := by
  unfold releaseIp
  split <;> rfl

omit [DecidableEq Ip] in
theorem underGlobalCap_fetchSub {slots : SseSlots Ip} (under : slots.underGlobalCap = true)
    : slots.fetchSub.underGlobalCap = true := by
  simp [underGlobalCap, fetchSub] at under ⊢
  omega

theorem step_roomy {s t : State Ip} {action : Action Ip} (alone : Alone s action)
    (roomy : Roomy s) (stepped : step s action = some t)
    : Roomy t := by
  obtain ⟨few, under⟩ := roomy
  cases step_effect stepped with
  | refused ip => exact ⟨few, under⟩
  | loaded ip passed =>
      have none := alone ip rfl
      have one : State.pending { s with tasks := s.tasks ++ [⟨ip, .checked⟩] } = 1 := by
        simpa [State.pending, List.countP_append, Phase.pending] using none
      exact ⟨Nat.le_of_eq one, fun _ => passed⟩
  | @counted i task found phase =>
      have count := pending_move found (s.slots.countIp task.ip).1
        (if (s.slots.countIp task.ip).2 then .counted else .ended)
      have checked : Phase.checked.pending.toNat = 1 := rfl
      have bound := Bool.toNat_le
        (if (s.slots.countIp task.ip).2 then Phase.counted else .ended).pending
      rw [phase, checked] at count
      refine ⟨by omega, fun some => ?_⟩
      exact (underGlobalCap_countIp s.slots task.ip).trans (under (by omega))
  | added found phase =>
      have count := pending_move found s.slots.fetchAdd .live
      simp only [phase, Phase.pending, Bool.toNat_true, Bool.toNat_false] at count
      exact ⟨by omega, fun some => absurd some (by omega)⟩
  | dropped found phase =>
      have count := pending_move found s.slots.fetchSub .releasing
      simp only [phase, Phase.pending, Bool.toNat_false] at count
      exact ⟨by omega, fun some => underGlobalCap_fetchSub (under (by omega))⟩
  | @released i task found phase =>
      have count := pending_move found (s.slots.releaseIp task.ip) .ended
      simp only [phase, Phase.pending, Bool.toNat_false] at count
      refine ⟨by omega, fun some => ?_⟩
      exact (underGlobalCap_releaseIp s.slots task.ip).trans (under (by omega))

/-- As long as no two acquires overlap, every increment would pass the check again. -/
theorem along_passesAgain {s t : State Ip} {actions : List (Action Ip)} (roomy : Roomy s)
    (alone : Machine.Along step Alone s actions)
    (ran : Machine.run step s actions = some t)
    : Machine.Along step PassesAgain s actions := by
  induction actions generalizing s with
  | nil => trivial
  | cons action rest ih =>
      obtain ⟨middle, stepped, later⟩ := Machine.run_cons.mp ran
      have onwards := ih (step_roomy alone.1 roomy stepped) (alone.2 middle stepped) later
      refine ⟨?_, fun next same => ?_⟩
      · intro i adds
        subst adds
        obtain ⟨task, here, _⟩ := Option.bind_eq_some_iff.mp stepped
        obtain ⟨found, phase⟩ := taskIn_eq_some.mp here
        have count := pending_move found s.slots.fetchAdd .live
        simp only [phase, Phase.pending, Bool.toNat_true, Bool.toNat_false] at count
        exact roomy.2 (by omega)
      · exact Option.some.inj (stepped.symm.trans same) ▸ onwards

/-- At every moment of an interleaving at most `globalCap` slots are held, exactly if the check
of the global counter would pass again at each of its increments. This is so in particular as
long as no acquire starts between the check and the increment of another.
-/
theorem global_cap_holds_iff {perIpCap globalCap : Nat} (capped : 0 < globalCap)
    {actions : List (Action Ip)} {s : State Ip}
    (ran : Machine.run step (State.init perIpCap globalCap) actions = some s)
    : (Machine.Always step State.WithinGlobalCap (State.init perIpCap globalCap) actions
        ↔ Machine.Along step PassesAgain (State.init perIpCap globalCap) actions)
      ∧ (Machine.Along step Alone (State.init perIpCap globalCap) actions
        → Machine.Always step State.WithinGlobalCap (State.init perIpCap globalCap) actions) := by
  refine ⟨run_withinGlobalCap_iff capped ran, fun alone => ?_⟩
  have roomy : Roomy (State.init perIpCap globalCap : State Ip) :=
    ⟨Nat.zero_le _, fun some => absurd rfl some⟩
  exact (run_withinGlobalCap_iff capped ran).mpr (along_passesAgain roomy alone ran)

/-- Two acquires one after the other, with a global cap of one and a drop in between. -/
def sampleSequence : List (Action Nat) :=
  [.load 1, .count 0, .add 0, .load 2, .sub 0, .release 0, .load 2, .count 1, .add 1]

theorem global_cap_holds_in_sequence
    : ∃ s,
        Machine.run step (State.init 0 1) sampleSequence = some s
        ∧ Machine.Always step State.WithinGlobalCap (State.init 0 1) sampleSequence := by
  have observed : (Machine.run step (State.init 0 1) sampleSequence).map State.live = some 1 := by
    decide +kernel
  obtain ⟨s, ran, _⟩ := Option.map_eq_some_iff.mp observed
  have along : Machine.Along step PassesAgain (State.init 0 1) sampleSequence := by
    decide +kernel
  exact ⟨s, ran, (global_cap_holds_iff (by decide) ran).1.mpr along⟩

/-- With a global cap of one, two acquires that both load the counter before either counts it up
hold two slots.
-/
theorem global_cap_exceeded
    : ∃ s : State Nat,
        Machine.run step (State.init 0 1)
          [.load 1, .load 2, .count 0, .add 0, .count 1, .add 1] = some s
        ∧ s.slots.globalCap = 1
        ∧ s.live = 2 := by
  have observed
      : (Machine.run step (State.init 0 1 : State Nat)
          [.load 1, .load 2, .count 0, .add 0, .count 1, .add 1]).map
          (fun s => (s.slots.globalCap, s.live))
        = some (1, 2) := by
    decide +kernel
  obtain ⟨s, ran, values⟩ := Option.map_eq_some_iff.mp observed
  obtain ⟨cap, live⟩ := Prod.mk.inj values
  exact ⟨s, ran, cap, live⟩

end SseSlots

end Attesta.Api
