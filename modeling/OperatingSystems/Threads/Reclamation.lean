import OperatingSystems.Threads.Exited

/-!
# The threads in the exit queue are freed

`clear_queue` reads `next` of the first node, frees the node and then makes `next` the head. Between
the reading and the assignment (`ClearPc.midway`) the head of the exit queue is a node that is about
to be freed, or has been. `thread_yield` and `thread_sleep` clear the exit queue with interrupts
disabled. `thread_stub` has enabled them before, so that the timer can interrupt it there; the
thread that runs next then finds that node at the head.

`Reclaiming` is the invariant of the runs in which this does not happen: the nodes from the head on
are nodes of threads that have exited, and none of them has been freed, but for the first one while
the running thread is about to advance the head. In these runs every node is freed at most once, not
by its own thread, and not read afterwards (`exited_threads_reclaimed_once`); in others a node is
read after it has been freed (`exited_thread_read_after_free`).
-/

set_option autoImplicit false
set_option relaxedAutoImplicit false

namespace OperatingSystems.Threads

open State (Move Memory)
open OperatingSystems.Library.LinkedQueue (IsQueue Path Queue)

variable {a b : Ideal} {s t u : State} {g h n : ℕ} {i : Instr} {m : Move} {l : List ℕ}
  {k : Queue ℕ} {kept : Set ℕ} {log : List Event} {rest todo : List Instr} {pc : ClearPc}

/-! ### The log -/

/-- A node of the set is freed by another thread than its own, and no event about it follows. -/
def Reclaims (kept : Set ℕ) (log : List Event) : Prop :=
  ∀ later before g h, log = later ++ .free g h :: before → h ∈ kept →
    g ≠ h ∧ ∀ e ∈ later, e.node ≠ h

/-- The node has been freed. -/
def Freed (log : List Event) (h : ℕ) : Prop := ∃ g, .free g h ∈ log

theorem Reclaims.mono {kept' : Set ℕ} (hlog : Reclaims kept log) (hsub : kept' ⊆ kept) :
    Reclaims kept' log :=
  fun later before g h heq hh ↦ hlog later before g h heq (hsub hh)

/-- Assumes: an event about a node that has not been freed, if the node is in the set. -/
theorem Reclaims.cons (hlog : Reclaims kept log) {e : Event}
    (hnew : e.node ∈ kept → ¬Freed log e.node)
    (hself : ∀ g h, e = .free g h → h ∈ kept → g ≠ h) : Reclaims kept (e :: log) := by
  intro later before g h heq hh
  cases later with
  | nil =>
    obtain ⟨rfl, -⟩ := List.cons.inj heq
    exact ⟨hself g h rfl hh, by simp⟩
  | cons e' later =>
    obtain ⟨rfl, rfl⟩ := List.cons.inj heq
    obtain ⟨hne, hlater⟩ := hlog later before g h rfl hh
    refine ⟨hne, fun e' he' ↦ ?_⟩
    rcases List.mem_cons.mp he' with rfl | he'
    · rintro rfl
      exact hnew hh ⟨g, by simp⟩
    · exact hlater e' he'

/-- Events about other nodes. -/
theorem Reclaims.append (hlog : Reclaims kept log) {more : List Event}
    (hmore : ∀ e ∈ more, e.node ∉ kept) : Reclaims kept (more ++ log) := by
  induction more with
  | nil => exact hlog
  | cons e more ih =>
    have hnode := hmore e List.mem_cons_self
    refine (ih fun e' he' ↦ hmore e' (List.mem_cons_of_mem e he')).cons
      (fun hmem ↦ absurd hmem hnode) fun g h heq hh ↦ ?_
    subst heq
    exact absurd hh hnode

/-- Another thread clears a queue of nodes that have not been freed. -/
theorem Reclaims.cleared (hlog : Reclaims kept log) {by_ : ℕ} (hnodup : l.Nodup)
    (hfreed : ∀ h ∈ l, ¬Freed log h) (hby : by_ ∉ l) : Reclaims kept (cleared by_ l ++ log) := by
  induction l generalizing log with
  | nil => exact hlog
  | cons h l ih =>
    obtain ⟨hl, hnodup⟩ := List.nodup_cons.mp hnodup
    have hne : by_ ≠ h := fun heq ↦ hby (by simp [heq])
    have hread : Reclaims kept (.read h :: log) :=
      hlog.cons (fun _ ↦ hfreed h List.mem_cons_self) (by simp)
    have hfree : Reclaims kept (.free by_ h :: .read h :: log) := by
      refine hread.cons (fun _ ↦ ?_) fun g h' heq _ ↦ ?_
      · rintro ⟨g, hg⟩
        exact hfreed h List.mem_cons_self ⟨g, by simpa [Event.node] using hg⟩
      · simp only [Event.free.injEq] at heq
        rw [← heq.1, ← heq.2]
        exact hne
    have hmore := ih hfree hnodup (fun h' hh' ↦ ?_) fun hmem ↦ hby (List.mem_cons_of_mem _ hmem)
    · simpa [Threads.cleared] using hmore
    · rintro ⟨g, hg⟩
      rcases List.mem_cons.mp hg with heq | hg
      · simp only [Event.free.injEq] at heq
        exact hl (heq.2 ▸ hh')
      · exact hfreed h' (List.mem_cons_of_mem _ hh') ⟨g, by simpa using hg⟩

/-! ### Inside of `clear_queue` -/

/-- The step is one between the reading of `next` and the advance of the head; before a node is
freed that has no successor, nothing depends on it. -/
def ClearPc.midway : ClearPc → Bool
  | .free (some _) | .advance _ => true
  | _ => false

/-- The thread is not between the reading of `next` and the advance of the head. -/
abbrev Calm (todo : List Instr) : Prop := Avoids ClearPc.midway todo

namespace Ideal

/-- A statement of the handler of an interrupt, while no other thread is ready. -/
theorem Executes.alone (hexec : a.Executes i b) (hi : i ∈ handlerCode)
    (hready : a.ready = [a.core.current]) : b.ready = a.ready ∧
      b.core.current = a.core.current ∧ b.core.self.todo = a.core.self.todo := by
  simp only [handlerCode, yieldCode, List.cons_append, List.nil_append, List.mem_cons,
    List.not_mem_nil, or_false] at hi
  rcases hi with rfl | rfl | rfl | rfl
  · cases hexec with
    | off => exact ⟨rfl, rfl, congrArg Control.todo a.core.control_interruptsOff_self⟩
  · cases hexec with
    | yieldNone => exact ⟨rfl, rfl, congrArg Control.todo (a.core.control_setRet _ a.core.current)⟩
    | yieldInvalid hany => exact absurd rfl hany
    | yieldSelf _ hany => exact absurd rfl hany
    | yieldSwitch hold =>
      rw [hready] at hold
      simp at hold
  · cases hexec with
    | set hset =>
      rw [Core.interruptsSet] at hset
      split at hset
      · cases hset
      · obtain rfl := Option.some.inj hset
        exact ⟨rfl, rfl, by simp [Core.self, Core.modify]⟩
  · cases hexec with
    | sigreturn => exact ⟨rfl, rfl, rfl⟩

end Ideal

/-! ### The exit queue -/

/-- What is known of the exit queue, with its head and its nodes, at the statements between the
reading of `next` and the advance of the head. -/
inductive Midway (s : State) (head : Option ℕ) (l : List ℕ) : ClearPc → Prop
  | free {h n : ℕ} (hhead : head = some h) (hnext : s.next h = some n)
      (hfreed : ∀ g ∈ l, ¬Freed s.log g) : Midway s head l (.free (some n))
  | advance {next : Option ℕ} (hnext : next = none ∨ ∃ h, head = some h ∧ s.next h = next)
      (hfreed : ∀ g ∈ l, Freed s.log g → head = some g) : Midway s head l (.advance next)

theorem Midway.midway {head : Option ℕ} (h : Midway s head l pc) :
    pc.midway = true := by
  cases h <;> rfl

theorem Midway.congr {head : Option ℕ} (h : Midway s head l pc) (hlog : t.log = s.log)
    (hnext : ∀ h, head = some h → t.next h = s.next h) : Midway t head l pc := by
  cases h with
  | free hhead hn hfreed => exact .free hhead ((hnext _ hhead).trans hn) (hlog ▸ hfreed)
  | advance hn hfreed =>
    refine .advance (hn.imp_right fun ⟨h, hhead, hn⟩ ↦ ?_) (hlog ▸ hfreed)
    exact ⟨h, hhead, (hnext h hhead).trans hn⟩

/-- What is known of the exit queue, with its head and its nodes, before a step of `clear_queue` and
after it. -/
inductive Place (s : State) (head : Option ℕ) (l : List ℕ) : Option ClearPc → Prop
  | outside {pc : Option ClearPc} (hpc : Calm (pc.toList.map .clear))
      (hfreed : ∀ g ∈ l, ¬Freed s.log g) : Place s head l pc
  | midway {pc : ClearPc} (hpc : Midway s head l pc) : Place s head l (some pc)

/-- The nodes from the head of the exit queue on are in the set, and so are all nodes that have been
freed; each of these is in order. -/
structure ExitQueue (s : State) (kept : Set ℕ) (pc : Option ClearPc) : Prop where
  queue : ∃ k l, s.queues .eq = some k ∧ Path s.next k.head l none ∧ (∀ h ∈ l, h ∈ kept) ∧
    Place s k.head l pc
  logged : ∀ e ∈ s.log, e.node ∈ kept
  reclaims : Reclaims Set.univ s.log

/-- A step that neither reads nor frees a node, nor moves the head. -/
theorem ExitQueue.quiet {pc' : Option ClearPc} (hq : ExitQueue s kept (some pc))
    (hpc : pc.midway = false) (hnext : t.next = s.next) (hlog : t.log = s.log)
    {r : Queue ℕ} (hk : s.queues .eq = some k) (hk' : t.queues .eq = some r)
    (hhead : r.head = k.head) (hpc' : Calm (pc'.toList.map .clear)) : ExitQueue t kept pc' where
  queue := by
    obtain ⟨j, l, hj, hpath, hkept, hplace⟩ := hq.queue
    obtain rfl := Option.some.inj (hk.symm.trans hj)
    refine ⟨r, l, hk', by rwa [hnext, hhead], hkept, .outside hpc' (hlog ▸ ?_)⟩
    cases hplace with
    | outside _ hfreed => exact hfreed
    | midway h => exact absurd (hpc.symm.trans h.midway) (by simp)
  logged := hlog ▸ hq.logged
  reclaims := hlog ▸ hq.reclaims

/-- The first node is read. -/
theorem ExitQueue.read (hq : ExitQueue s kept (some .next)) (hk : s.queues .eq = some k)
    (hhead : k.head = some h) :
    ExitQueue { s with log := .read h :: s.log } kept (some (.free (s.next h))) := by
  obtain ⟨k', l, hk', hpath, hkept, hplace⟩ := hq.queue
  obtain rfl := Option.some.inj (hk.symm.trans hk')
  have hfreed : ∀ g ∈ l, ¬Freed s.log g := by
    cases hplace with
    | outside _ hfreed => exact hfreed
    | midway hpc => cases hpc
  have hmem : h ∈ l := hpath.mem_of_head hhead
  have hfreed' : ∀ g ∈ l, ¬Freed (.read h :: s.log) g := by
    rintro g hg ⟨f, hf⟩
    exact hfreed g hg ⟨f, (List.mem_cons.mp hf).resolve_left (by simp)⟩
  refine ⟨⟨k, l, hk, hpath, hkept, ?_⟩, List.forall_mem_cons.mpr ⟨hkept h hmem, hq.logged⟩,
    hq.reclaims.cons (fun _ ↦ hfreed h hmem) (by simp)⟩
  cases hnext : s.next h with
  | none => exact .outside (avoids_iff_all.mpr rfl) hfreed'
  | some n => exact .midway (.free hhead hnext hfreed')

/-- The first node, if there is one, is freed. -/
theorem ExitQueue.free {next : Option ℕ} (hq : ExitQueue s kept (some (.free next)))
    (hcurrent : s.core.current ∉ kept) (hk : s.queues .eq = some k) :
    (k.head = none → ExitQueue s kept (some (.advance next))) ∧
    ∀ h, k.head = some h →
      ExitQueue { s with log := .free s.core.current h :: s.log } kept (some (.advance next)) := by
  obtain ⟨k', l, hk', hpath, hkept, hplace⟩ := hq.queue
  obtain rfl := Option.some.inj (hk.symm.trans hk')
  obtain ⟨hnext, hfreed⟩ : (next = none ∨ ∃ h, k.head = some h ∧ s.next h = next) ∧
      ∀ g ∈ l, ¬Freed s.log g := by
    cases hplace with
    | outside hpc hfreed =>
      refine ⟨.inl ?_, hfreed⟩
      cases next with
      | none => rfl
      | some n => exact absurd (hpc _ List.mem_cons_self) (by simp [Instr.at, ClearPc.midway])
    | midway hpc =>
      cases hpc with
      | free hhead hn hfreed => exact ⟨.inr ⟨_, hhead, hn⟩, hfreed⟩
  refine ⟨fun hnone ↦ ⟨⟨k, l, hk, hpath, hkept, .midway (.advance hnext fun g hg hf ↦
    absurd hf (hfreed g hg))⟩, hq.logged, hq.reclaims⟩, fun h hhead ↦ ?_⟩
  have hmem : h ∈ l := hpath.mem_of_head hhead
  refine ⟨⟨k, l, hk, hpath, hkept, .midway (.advance hnext ?_)⟩,
    List.forall_mem_cons.mpr ⟨hkept h hmem, hq.logged⟩,
    hq.reclaims.cons (fun _ ↦ hfreed h hmem) fun g h' heq _ ↦ ?_⟩
  · rintro g hg ⟨f, hf⟩
    rcases List.mem_cons.mp hf with heq | hf
    · rw [hhead, (Event.free.inj heq).2]
    · exact absurd ⟨f, hf⟩ (hfreed g hg)
  · obtain ⟨rfl, rfl⟩ := Event.free.inj heq
    exact fun heq ↦ hcurrent (heq ▸ hkept _ hmem)

/-- The head is advanced. -/
theorem ExitQueue.advance {next : Option ℕ} (hq : ExitQueue s kept (some (.advance next)))
    (hk : s.queues .eq = some k) :
    ExitQueue { s with queues := Function.update s.queues .eq (some { k with head := next }) } kept
      (some .test) := by
  obtain ⟨k', l, hk', hpath, hkept, hplace⟩ := hq.queue
  obtain rfl := Option.some.inj (hk.symm.trans hk')
  cases hplace with
  | outside hpc => exact absurd (hpc _ List.mem_cons_self) (by simp [Instr.at, ClearPc.midway])
  | midway hpc =>
    cases hpc with
    | advance hnext hfreed =>
      rcases hnext with rfl | ⟨h, hhead, hn⟩
      · exact ⟨⟨{ k with head := none }, [], by simp, rfl, by simp,
          .outside (avoids_iff_all.mpr rfl) (by simp)⟩, hq.logged, hq.reclaims⟩
      · cases l with
        | nil => exact absurd (hpath.symm.trans hhead) (by simp)
        | cons g l =>
          obtain rfl := Option.some.inj (hpath.1.symm.trans hhead)
          refine ⟨⟨{ k with head := next }, l, by simp, by
            rw [← hn]
            exact hpath.2, fun h hh ↦ hkept h (List.mem_cons_of_mem _ hh),
            .outside (avoids_iff_all.mpr rfl) fun h hh hf ↦ ?_⟩, hq.logged, hq.reclaims⟩
          -- The node that has been freed is not in the rest of the queue.
          have heq := hfreed h (List.mem_cons_of_mem _ hh) hf
          obtain rfl := Option.some.inj (hhead.symm.trans heq)
          exact (List.nodup_cons.mp hpath.nodup).1 hh

/-- Every step of `clear_queue` by a thread that has not exited. -/
theorem ExitQueue.step {pc' : Option ClearPc} (hq : ExitQueue s kept (some pc))
    (hcurrent : s.core.current ∉ kept) (hstep : s.clearStep .eq pc = some (t, pc')) :
    ExitQueue t kept pc' := by
  obtain ⟨k, hk⟩ : ∃ k, s.queues .eq = some k := by
    obtain ⟨k, -, hk, -⟩ := hq.queue
    exact ⟨k, hk⟩
  cases pc with
  | test =>
    simp only [State.clearStep, hk, Option.bind_eq_bind, Option.bind_some] at hstep
    obtain ⟨rfl, rfl⟩ := Prod.mk.inj (Option.some.inj hstep)
    refine hq.quiet rfl rfl rfl hk hk rfl ?_
    split_ifs <;> exact avoids_iff_all.mpr rfl
  | next =>
    simp only [State.clearStep, hk, Option.bind_eq_bind, Option.bind_some,
      Option.bind_eq_some_iff] at hstep
    obtain ⟨h, hhead, hstep⟩ := hstep
    obtain ⟨rfl, rfl⟩ := Prod.mk.inj (Option.some.inj hstep)
    exact hq.read hk hhead
  | free next =>
    obtain ⟨hnone, hsome⟩ := hq.free hcurrent hk
    simp only [State.clearStep, hk, Option.bind_eq_bind, Option.bind_some] at hstep
    split at hstep
    · rename_i hhead
      obtain ⟨rfl, rfl⟩ := Prod.mk.inj (Option.some.inj hstep)
      exact hnone hhead
    · rename_i h hhead
      obtain ⟨rfl, rfl⟩ := Prod.mk.inj (Option.some.inj hstep)
      exact hsome h hhead
  | advance next =>
    simp only [State.clearStep, hk, Option.bind_eq_bind, Option.bind_some] at hstep
    obtain ⟨rfl, rfl⟩ := Prod.mk.inj (Option.some.inj hstep)
    exact hq.advance hk
  | tail =>
    simp only [State.clearStep, hk, Option.bind_eq_bind, Option.bind_some] at hstep
    obtain ⟨rfl, rfl⟩ := Prod.mk.inj (Option.some.inj hstep)
    exact hq.quiet rfl rfl rfl hk (r := { k with tail := none }) (by simp) rfl
      (avoids_iff_all.mpr rfl)
  | size =>
    simp only [State.clearStep, hk, Option.bind_eq_bind, Option.bind_some] at hstep
    obtain ⟨rfl, rfl⟩ := Prod.mk.inj (Option.some.inj hstep)
    exact hq.quiet rfl rfl rfl hk (r := { k with size := 0 }) (by simp) rfl
      (avoids_iff_all.mpr rfl)

/-- Statements that do not touch the exit queue. -/
theorem ExitQueue.of_untouched {pc : Option ClearPc} {kept' : Set ℕ} (hq : ExitQueue s kept pc)
    (huntouched : s.Untouched kept t) (hsub : kept ⊆ kept') : ExitQueue t kept' pc where
  queue := by
    obtain ⟨k, l, hk, hpath, hkept, hplace⟩ := hq.queue
    have hnext : ∀ g ∈ l, t.next g = s.next g := fun g hg ↦ huntouched.next g (hkept g hg)
    refine ⟨k, l, huntouched.exitQueue.trans hk, hpath.congr hnext, fun h hh ↦ hsub (hkept h hh),
      ?_⟩
    cases hplace with
    | outside hpc hfreed => exact .outside hpc (huntouched.log ▸ hfreed)
    | midway hpc =>
      exact .midway (hpc.congr huntouched.log fun h hhead ↦ hnext h (hpath.mem_of_head hhead))
  logged e he := hsub (hq.logged e (huntouched.log ▸ he))
  reclaims := huntouched.log ▸ hq.reclaims

/-- What holds outside of `clear_queue` holds at each of its steps that is not between the two, and
the other way round. -/
theorem ExitQueue.of_calm {pc pc' : Option ClearPc} (hq : ExitQueue s kept pc)
    (hpc : Calm (pc.toList.map .clear)) (hpc' : Calm (pc'.toList.map .clear)) :
    ExitQueue s kept pc' where
  queue := by
    obtain ⟨k, l, hk, hpath, hkept, hplace⟩ := hq.queue
    refine ⟨k, l, hk, hpath, hkept, .outside hpc' ?_⟩
    cases hplace with
    | outside _ hfreed => exact hfreed
    | midway h =>
      have hnot := hpc _ List.mem_cons_self
      exact absurd (hnot.symm.trans h.midway) (by simp)
  logged := hq.logged
  reclaims := hq.reclaims

/-! ### The invariant -/

/-- The running thread is not between the two, or it is, perhaps inside of the handler of an
interrupt while no other thread is ready. -/
inductive Stage (s : State) (a : Ideal) : Prop
  | outside (hcalm : Calm a.core.self.todo) (hqueue : ExitQueue s a.core.exitedThreads none)
  | inside {before rest : List Instr} {pc : ClearPc}
      (htodo : a.core.self.todo = before ++ .clear pc :: rest)
      (hpc : pc.midway = true) (hbefore : ∀ i ∈ before, i ∈ handlerCode)
      (halone : before ≠ [] → a.ready = [a.core.current]) (hcalm : Calm rest)
      (hqueue : ExitQueue s a.core.exitedThreads (some pc))

/-- The exit queue and the threads are in order. -/
structure Reclaiming (s : State) (a : Ideal) : Prop where
  stage : Stage s a
  others : a.OthersAvoid ClearPc.midway

/-- The nodes that have been freed are in order. -/
theorem Reclaiming.reclaims (hr : Reclaiming s a) : Reclaims Set.univ s.log := by
  cases hr.stage with
  | outside _ hqueue => exact hqueue.reclaims
  | inside _ _ _ _ _ hqueue => exact hqueue.reclaims

theorem Stage.of_calm (hstage : Stage s a) (hcalm : Calm a.core.self.todo) :
    ExitQueue s a.core.exitedThreads none := by
  cases hstage with
  | outside _ hqueue => exact hqueue
  | @inside before rest pc htodo hpc =>
    have hnot := hcalm (.clear pc) (by simp [htodo])
    exact absurd (hnot.symm.trans hpc) (by simp)

/-- A thread that is not between the two makes a move that is none of `clear_queue`. -/
theorem Reclaiming.outside (hr : Reclaiming s a) (ha : a.Ordered) (htransition : a.Transition m b)
    (hcalm : Calm a.core.self.todo) (hclear : ∀ pc rest, a.core.self.todo ≠ .clear pc :: rest)
    (hqueue : ExitQueue t b.core.exitedThreads none) : Reclaiming t b := by
  have hall : ∀ g < b.core.allocated, (b.core.tcb g).exited = false →
      Calm (b.core.tcb g).todo := fun g hg hlive ↦
    hr.others.all rfl ha htransition hcalm hclear hg hlive
  obtain ⟨hlt, hlive⟩ := (ha.transition htransition).current_live
  exact ⟨.outside (hall _ hlt hlive) hqueue, fun g hg hlive _ ↦ hall g hg hlive⟩

/-- The timer interrupts a thread. -/
theorem Reclaiming.interrupt (hr : Reclaiming s a) (ha : a.Ordered)
    (hcalm : Calm a.core.self.todo ∨ a.ready = [a.core.current])
    (htransition : a.Transition .timer b)
    (huntouched : s.Untouched a.core.exitedThreads t) : Reclaiming t b := by
  have hqueue : ∀ {pc}, ExitQueue s a.core.exitedThreads pc → ExitQueue t b.core.exitedThreads pc :=
    fun h ↦ h.of_untouched huntouched (htransition.exitedThreads ha)
  have hothers : ∀ g < b.core.allocated, (b.core.tcb g).exited = false → g ≠ a.core.current →
      Calm (b.core.tcb g).todo := fun g hg hlive hne ↦
    hr.others.other rfl ha htransition hg hlive hne
  cases htransition
  have htodo : (a.mapCore (·.interrupt)).core.self.todo = handlerCode ++ a.core.self.todo := by
    simp [Core.self, Core.interrupt, Core.push, Core.modify]
  refine ⟨?_, hothers⟩
  cases hr.stage with
  | outside hcalm hq =>
    refine .outside ?_ (hqueue hq)
    rw [htodo]
    exact (avoids_handlerCode _).append hcalm
  | @inside before rest pc htodo' hpc hbefore halone hrest hq =>
    have hsplit : (a.mapCore (·.interrupt)).core.self.todo =
        (handlerCode ++ before) ++ .clear pc :: rest := by
      rw [htodo, htodo', List.append_assoc]
    refine .inside hsplit hpc (fun i hi ↦ (List.mem_append.mp hi).elim id (hbefore i))
      (fun _ ↦ ?_) hrest (hqueue hq)
    refine hcalm.resolve_left fun hcalm ↦ ?_
    have hnot := hcalm (.clear pc) (by simp [htodo'])
    exact absurd (hnot.symm.trans hpc) (by simp)

/-- A statement of the handler of an interrupt that has found the running thread between the
two. -/
theorem Reclaiming.alone (hr : Reclaiming s a) (ha : a.Ordered) (memory : Memory)
    (htodo : a.core.self.todo = i :: rest) (hcalm : ¬Calm a.core.self.todo)
    (hclear : ∀ pc, i ≠ .clear pc) {b : Ideal} (hexec : (a.popped rest).Executes i b)
    (huntouched : s.Untouched a.core.exitedThreads t) :
    Reclaiming t (b.mapCore (·.finish a.core.current)) := by
  have htransition := Ideal.Transition.instr (m := memory) htodo hexec
  cases hr.stage with
  | outside h => exact absurd h hcalm
  | @inside before rest' pc htodo' hpc hbefore halone hrest hq =>
    cases before with
    | nil => exact absurd (List.cons.inj (htodo.symm.trans htodo')).1 (hclear pc)
    | cons j before =>
      obtain ⟨rfl, rfl⟩ := List.cons.inj (htodo.symm.trans htodo')
      obtain ⟨hready, hsame, hself⟩ :=
        hexec.alone (hbefore i List.mem_cons_self) (halone (by simp))
      have hcurrent : b.core.current = a.core.current := hsame
      have hself' : (b.mapCore (·.finish a.core.current)).core.self.todo =
          before ++ .clear pc :: rest' := by
        change ((b.core.finish a.core.current).tcb b.core.current).todo = _
        rw [hcurrent, Core.todo_finish, ← hcurrent]
        refine hself.trans ?_
        simp [Ideal.popped, Core.self, Core.modify]
      refine ⟨.inside hself' hpc (fun i hi ↦ hbefore i (List.mem_cons_of_mem _ hi)) (fun _ ↦ ?_)
        hrest (hq.of_untouched huntouched (htransition.exitedThreads ha)), fun g hg hlive hne ↦
          hr.others.other rfl ha htransition hg hlive fun heq ↦ hne (heq.trans hcurrent.symm)⟩
      exact hready.trans ((halone (by simp)).trans (congrArg (fun h ↦ [h]) hcurrent.symm))

/-- The running thread executes a step of `clear_queue`. -/
theorem Reclaiming.clear (hr : Reclaiming s a) (hs : Linked s a) (ha : a.Ordered)
    (hlive : s.core.halted = false) (htodo : a.core.self.todo = .clear pc :: rest)
    {memory : Memory} (hstep : s.step (.instr memory) = some t) (hb : Linked t b)
    (htransition : a.Transition (.instr memory) b) : Reclaiming t b := by
  obtain ⟨u, pc', hclear, hnext, hqueues, hlog, -, hcurrent, htodo'⟩ :=
    State.step_clear hlive (by rwa [hs.core]) hstep
  rw [hb.core, hs.core] at hcurrent
  rw [hb.core] at htodo'
  obtain ⟨hrest, hq⟩ : Calm rest ∧ ExitQueue s a.core.exitedThreads (some pc) := by
    cases hr.stage with
    | outside hcalm hq =>
      rw [htodo] at hcalm
      exact ⟨hcalm.tail, hq.of_calm (by simp [Avoids]) fun i hi ↦ hcalm i (by simp_all)⟩
    | @inside before rest' pc' htodo' _ hbefore _ hrest hq =>
      cases before with
      | nil =>
        obtain ⟨heq, rfl⟩ := List.cons.inj (htodo.symm.trans htodo')
        exact ⟨hrest, Instr.clear.inj heq ▸ hq⟩
      | cons j before =>
        obtain ⟨rfl, -⟩ := List.cons.inj (htodo.symm.trans htodo')
        exact absurd (hbefore _ List.mem_cons_self) (by simp [handlerCode, yieldCode])
  have hpop : ExitQueue (s.pop rest) a.core.exitedThreads (some pc) :=
    hq.of_untouched (State.untouched_mapCore _ s _) subset_rfl
  have hself : (s.pop rest).core.current ∉ a.core.exitedThreads := by
    change s.core.current ∉ a.core.exitedThreads
    rw [hs.core]
    simp [Core.exitedThreads, ha.current_live.2]
  have hqueue : ExitQueue t b.core.exitedThreads pc' :=
    (hpop.step hself hclear).of_untouched ⟨fun _ _ ↦ by rw [hnext], by rw [hqueues], hlog⟩
      (htransition.exitedThreads ha)
  refine ⟨?_, fun g hg hlive hne ↦
    hr.others.other rfl ha htransition hg hlive fun heq ↦ hne (heq.trans hcurrent.symm)⟩
  by_cases hcalm : Calm (pc'.toList.map .clear)
  · exact .outside (htodo' ▸ hcalm.append hrest) (hqueue.of_calm hcalm (by simp [Avoids]))
  · cases pc' with
    | none => exact absurd (by simp [Avoids]) hcalm
    | some pc' =>
      have hsplit : b.core.self.todo = [] ++ .clear pc' :: rest := htodo'
      refine .inside hsplit ?_ (by simp) (by simp) hrest hqueue
      simpa [Avoids, Instr.at] using hcalm

/-! ### `thread_exit` -/

/-- The node of a thread that exits is appended to the exit queue. -/
theorem ExitQueue.append (hq : ExitQueue s kept none) (hn : n ∉ kept) (hnull : s.next n = none)
    (htail : ∀ k last, s.queues .eq = some k → k.tail = some last → last ∈ kept)
    (happend : s.appendNodeToQueue .eq n = some t) : ExitQueue t (insert n kept) none := by
  obtain ⟨k, l, hk, hpath, hkept, hplace⟩ := hq.queue
  have hfreed : ∀ g ∈ l, ¬Freed s.log g := by
    cases hplace with
    | outside _ hfreed => exact hfreed
  have hnew : ¬Freed s.log n := fun ⟨f, hf⟩ ↦ hn (hq.logged _ hf)
  obtain ⟨k', hk', happend⟩ := Option.bind_eq_some_iff.mp happend
  obtain rfl := Option.some.inj (hk.symm.trans hk')
  obtain ⟨⟨next, k'⟩, hlink, happend⟩ := Option.bind_eq_some_iff.mp happend
  obtain rfl := Option.some.inj happend
  obtain ⟨l', hpath', hl'⟩ : ∃ l', Path next k'.head l' none ∧ ∀ g ∈ l', g ∈ l ∨ g = n := by
    rw [Library.LinkedQueue.append] at hlink
    split at hlink
    · obtain ⟨rfl, rfl⟩ := Prod.mk.inj (Option.some.inj hlink)
      exact ⟨[n], ⟨rfl, hnull⟩, fun g hg ↦ .inr (List.mem_singleton.mp hg)⟩
    · obtain ⟨last, hlast, hlink⟩ := Option.bind_eq_some_iff.mp hlink
      obtain ⟨rfl, rfl⟩ := Prod.mk.inj (Option.some.inj hlink)
      exact hpath.attach last (fun hmem ↦ hn (hkept n hmem))
        (fun heq ↦ hn (heq ▸ htail k last hk hlast)) hnull
  refine ⟨⟨k', l', by simp, hpath', fun g hg ↦ ?_, .outside (by simp [Avoids]) fun g hg ↦ ?_⟩,
    fun e he ↦ .inr (hq.logged e he), hq.reclaims⟩
  · exact (hl' g hg).elim (fun h ↦ .inr (hkept g h)) .inl
  · exact (hl' g hg).elim (hfreed g) fun heq ↦ heq ▸ hnew

/-- A thread that executes a statement neither of the handler of an interrupt nor of `clear_queue`
is not between the two. -/
theorem Stage.calm (hstage : Stage s a) (htodo : a.core.self.todo = i :: rest)
    (hi : i ∉ handlerCode) (hclear : ∀ pc, i ≠ .clear pc) : Calm a.core.self.todo := by
  cases hstage with
  | outside hcalm => exact hcalm
  | @inside before rest' pc htodo' _ hbefore =>
    cases before with
    | nil => exact absurd (List.cons.inj (htodo.symm.trans htodo')).1 (hclear pc)
    | cons j before =>
      obtain ⟨rfl, -⟩ := List.cons.inj (htodo.symm.trans htodo')
      exact absurd (hbefore _ List.mem_cons_self) hi

/-- The running thread executes `thread_exit`. -/
theorem Reclaiming.exit (hr : Reclaiming s a) (hs : Linked s a) (ha : a.Ordered)
    (hlive : s.core.halted = false) (htodo : a.core.self.todo = .exit :: rest)
    {memory : Memory} (hstep : s.step (.instr memory) = some t) :
    t.core.halted = true ∧ Reclaims t.core.exitedThreads t.log ∨
      ExitQueue t t.core.exitedThreads none := by
  have hcalm := hr.stage.calm htodo (by simp [handlerCode, yieldCode]) (by simp)
  have hq := hr.stage.of_calm hcalm
  rw [State.step_instr hlive (by rwa [hs.core])] at hstep
  obtain ⟨v, hexit, rfl⟩ := Option.map_eq_some_iff.mp hstep
  obtain ⟨u, b, huntouched, hu, hb, hcurrent, hallocated, hexited, hnull, hcases⟩ :=
    (State.linked_pop hs rest).threadExit_cases (ha.popped rest) hexit
  have hpopped : {g | ((a.popped rest).core.tcb g).exited = true} = a.core.exitedThreads := by
    ext g
    simp only [Core.exitedThreads, Set.mem_ofPred_eq, (a.popped_frame rest).exited g]
  rw [hpopped] at huntouched
  have hself : (s.pop rest).core.current = a.core.current := by
    rw [← hs.core]
    rfl
  have hcurrent' : a.core.current ∉ a.core.exitedThreads := by
    simp [Core.exitedThreads, ha.current_live.2]
  have hold : ∀ g, ((s.pop rest).core.tcb g).exited = (a.core.tcb g).exited := fun g ↦ by
    rw [(State.linked_pop hs rest).core]
    exact (a.popped_frame rest).exited g
  rw [hself] at hcurrent hnull hcases
  have hq' : ExitQueue u a.core.exitedThreads none :=
    (hq.of_untouched (State.untouched_mapCore _ s _) subset_rfl).of_untouched huntouched subset_rfl
  rcases hcases with hend | ⟨w, new, happend, rfl⟩
  · obtain ⟨k, l, hk, hpath, hkept, hplace⟩ := hq'.queue
    have hfreed : ∀ g ∈ l, ¬Freed u.log g := by
      cases hplace with
      | outside _ hfreed => exact hfreed
    have hlength : l.length ≤ u.core.allocated := by
      rw [hallocated, (State.linked_pop hs rest).core, (a.popped_frame rest).allocated]
      exact Linked.length_of_exited ha hpath.nodup hkept
    obtain ⟨more, hlog, hmore, htcb, hhalted⟩ := hu.exitProcess_log hb hk hpath hlength hend
    refine .inl ⟨hhalted, ?_⟩
    have hset : (v.mapCore (·.finish s.core.current)).core.exitedThreads =
        u.core.exitedThreads := by
      ext g
      simp only [Core.exitedThreads, Set.mem_ofPred_eq, State.mapCore,
        (v.core.frame_finish _).exited g, htcb]
    change Reclaims _ v.log
    rw [hset, hlog, List.append_assoc]
    refine ((hq'.reclaims.mono (Set.subset_univ _)).cleared hpath.nodup hfreed fun hmem ↦
      ?_).append fun e he ↦ by simp [Core.exitedThreads, hmore e he]
    rw [hcurrent] at hmem
    exact hcurrent' (hkept _ hmem)
  · refine .inr ?_
    have hw : w.core = u.core := by
      obtain ⟨k, -, happend⟩ := Option.bind_eq_some_iff.mp happend
      obtain ⟨⟨next, k⟩, -, happend⟩ := Option.bind_eq_some_iff.mp happend
      obtain rfl := Option.some.inj happend
      rfl
    have happended := hq'.append hcurrent' hnull (fun k last hk hlast ↦ ?_) happend
    · refine happended.of_untouched (State.untouched_mapCore _ w fun c ↦
        (c.setcontext new).finish s.core.current) fun g hg ↦ ?_
      change (((w.core.setcontext new).finish s.core.current).tcb g).exited = true
      rw [(Core.frame_finish _ _).exited, (Core.frame_setcontext _ _).exited, hw, hexited, hself,
        hold]
      rcases hg with rfl | hg
      · exact if_pos rfl
      · rw [show (a.core.tcb g).exited = true from hg, ite_self]
    · obtain ⟨j, hj, htail⟩ := hs.tail
      rw [huntouched.exitQueue] at hk
      obtain rfl := Option.some.inj (hj.symm.trans hk)
      exact htail last hlast

/-! ### Runs -/

/-- The timer does not interrupt a thread between the reading of `next` and the advance of the head,
unless no other thread is ready. -/
def State.Undisturbed (s : State) (m : Move) : Prop :=
  m = .timer → Calm s.core.self.todo ∨ s.Ready [s.core.current]

/-- A move of such a run keeps the invariant, until the process ends. -/
theorem Reclaiming.step (hr : Reclaiming s a) (hs : Linked s a) (ha : a.Ordered) (hx : a.Exclusive)
    (hpermitted : s.Undisturbed m) (hstep : s.step m = some t) :
    t.core.halted = true ∧ Reclaims t.core.exitedThreads t.log ∨
      ∃ b, Linked t b ∧ b.Ordered ∧ b.Exclusive ∧ Reclaiming t b := by
  have hlive := State.halted_of_step hstep
  suffices h : t.core.halted = true ∧ Reclaims t.core.exitedThreads t.log ∨
      ∃ b, Linked t b ∧ a.Transition m b ∧ Reclaiming t b from
    h.imp_right fun ⟨b, hb, htransition, hrb⟩ ↦
      ⟨b, hb, ha.transition htransition, hx.transition ha htransition, hrb⟩
  have hrefines := hs.step_refines ha.separate (ha.unused _ (Nat.le_refl _)) hstep
  by_cases hclear : ∃ memory pc rest, m = .instr memory ∧ a.core.self.todo = .clear pc :: rest
  · obtain ⟨memory, pc, rest, rfl, htodo⟩ := hclear
    obtain ⟨u, pc', -, -, -, -, hlive', -⟩ :=
      State.step_clear hlive (by rw [hs.core, htodo]) hstep
    obtain ⟨b, htransition, hb⟩ := hrefines.resolve_left (by simp [hlive'])
    exact .inr ⟨b, hb, htransition, hr.clear hs ha hlive htodo hstep hb htransition⟩
  by_cases hexit : ∃ memory rest, m = .instr memory ∧ a.core.self.todo = .exit :: rest
  · obtain ⟨memory, rest, rfl, htodo⟩ := hexit
    rcases hr.exit hs ha hlive htodo hstep with hend | hqueue
    · exact .inl hend
    rcases hrefines with hend | ⟨b, htransition, hb⟩
    · exact .inl ⟨hend, hqueue.reclaims.mono (Set.subset_univ _)⟩
    · rw [hb.core] at hqueue
      refine .inr ⟨b, hb, htransition, hr.outside ha htransition ?_ (by simp [htodo]) hqueue⟩
      exact hr.stage.calm htodo (by simp [handlerCode, yieldCode]) (by simp)
  -- No other move touches the exit queue.
  have huntouched := hs.step_untouched ha hx hstep
    (fun memory pc rest hm htodo ↦ hclear ⟨memory, pc, rest, hm, htodo⟩)
    fun memory rest hm htodo ↦ hexit ⟨memory, rest, hm, htodo⟩
  rcases hrefines with hend | ⟨b, htransition, hb⟩
  · exact .inl ⟨hend, huntouched.log ▸ hr.reclaims.mono (Set.subset_univ _)⟩
  refine .inr ⟨b, hb, htransition, ?_⟩
  have houtside : Calm a.core.self.todo →
      (∀ pc rest, a.core.self.todo ≠ .clear pc :: rest) → Reclaiming t b := fun hcalm hnot ↦
    hr.outside ha htransition hcalm hnot
      ((hr.stage.of_calm hcalm).of_untouched huntouched (htransition.exitedThreads ha))
  cases htransition with
  | timer hflag =>
    refine hr.interrupt ha ((hpermitted rfl).imp (fun h ↦ by rwa [hs.core] at h) fun h ↦ ?_)
      (.timer hflag) huntouched
    rw [hs.core] at h
    exact State.HasQueue.eq hs.ready_list h
  | call htodo => exact houtside (by simp [htodo, Avoids]) (by simp [htodo])
  | interrupts htodo => exact houtside (by simp [htodo, Avoids]) (by simp [htodo])
  | @instr memory i rest b htodo hexec =>
    have hi : ∀ pc, i ≠ .clear pc := fun pc heq ↦ hclear ⟨memory, pc, rest, rfl, heq ▸ htodo⟩
    by_cases hcalm : Calm a.core.self.todo
    · exact houtside hcalm fun pc rest' heq ↦ hi pc (List.cons.inj (htodo.symm.trans heq)).1
    · exact hr.alone ha memory htodo hcalm hi hexec huntouched

end OperatingSystems.Threads
