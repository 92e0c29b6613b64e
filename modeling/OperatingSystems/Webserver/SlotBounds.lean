import OperatingSystems.Webserver.RequestRing

/-!
# The bounds of the request ring

`server_init` allocates `max_requests` slots and sets `max_size`, the modulus of both indices of
the ring, to `max_requests + 1`. The indices run through all the residues, so `in` and `out` reach
the slot behind the allocation, `in` when it stores the `max_requests + 1`-st connection and `out`
when it takes it, and both again after every further `max_requests + 1`.

`Counted` is the invariant: an index of the ring is the number of the connections that passed it,
modulo `max_size`. It holds in every interleaving, also while the server shuts down and the workers
take slots that hold no request.
-/

set_option autoImplicit false
set_option relaxedAutoImplicit false

namespace OperatingSystems.Webserver.Server

open OperatingSystems.Library

variable {s t : Server} {m : Move}

/-- The number of slots that `server_init` allocates for `buffer.requests`. -/
def slotsAllocated (maxRequests : ℕ) : ℕ := maxRequests

/-- The index at which a move writes or reads `buffer.requests`, if it does. -/
def slotAccess (s : Server) : Move → Option ℕ
  | .producer p =>
    match s.producers p with
    | .store _ => some s.buffer.inp
    | _ => none
  | .worker w =>
    match s.workers w with
    | .take => some s.buffer.out
    | _ => none
  | _ => none

/-- The access ends a round of the ring: with it a multiple of `max_requests + 1` connections are
stored, or taken. -/
def EndsRound (maxRequests : ℕ) (s : Server) : Move → Prop
  | .producer _ => maxRequests + 1 ∣ s.added.length + 1
  | _ => maxRequests + 1 ∣ s.taken.length + 1

/-! ### The indices count -/

/-- The indices of the ring count the connections added and taken. -/
structure Counted (maxRequests : ℕ) (s : Server) : Prop where
  size : s.buffer.maxSize = maxRequests + 1
  inp : s.buffer.inp = s.added.length % (maxRequests + 1)
  out : s.buffer.out = s.taken.length % (maxRequests + 1)

/-- Every move keeps the indices counting. -/
theorem Counted.step {maxRequests : ℕ} (h : s.Counted maxRequests) (hstep : Transition s m t) :
    t.Counted maxRequests := by
  obtain ⟨hsize, hinp, hout⟩ := h
  cases hstep with
  | producerAdvance hpc =>
    refine ⟨hsize, ?_, hout⟩
    show (s.buffer.inp + 1) % s.buffer.maxSize = (s.added ++ [_]).length % (maxRequests + 1)
    rw [hsize, hinp, Nat.mod_add_mod, List.length_append, List.length_singleton]
  | workerAdvance hpc =>
    refine ⟨hsize, hinp, ?_⟩
    show (s.buffer.out + 1) % s.buffer.maxSize = (s.taken ++ [_]).length % (maxRequests + 1)
    rw [hsize, hout, Nat.mod_add_mod, List.length_append, List.length_singleton]
  | _ => exact ⟨hsize, hinp, hout⟩

/-- In a new server nothing is counted yet. -/
theorem counted_serverInit (nrThreads maxRequests : ℕ) (slots : ℕ → ℤ) :
    (serverInit nrThreads maxRequests slots).Counted maxRequests :=
  ⟨rfl, (Nat.zero_mod _).symm, (Nat.zero_mod _).symm⟩

/-- In every reachable state the indices count. -/
theorem Reachable.counted {nrThreads maxRequests : ℕ} {slots : ℕ → ℤ}
    (h : Reachable nrThreads maxRequests slots s) : s.Counted maxRequests :=
  Machine.Reaches.invariant
    (fun _ _ _ hs _ hstep ↦ Counted.step hs (Transition.of_step hstep)) h
    (counted_serverInit nrThreads maxRequests slots)

/-- An access at an index takes that so many connections have been added or taken before. -/
theorem Counted.access_le {maxRequests i : ℕ} (h : s.Counted maxRequests)
    (haccess : s.slotAccess m = some i) : i ≤ s.added.length ∨ i ≤ s.taken.length := by
  cases m with
  | producer p =>
    rw [slotAccess] at haccess
    split at haccess
    · rw [← Option.some.inj haccess, h.inp]
      exact .inl (Nat.mod_le _ _)
    · cases haccess
  | worker w =>
    rw [slotAccess] at haccess
    split at haccess
    · rw [← Option.some.inj haccess, h.out]
      exact .inr (Nat.mod_le _ _)
    · cases haccess
  | _ => cases haccess

/-! ### The accesses -/

/-- A residue is below the last one exactly if the next number is no multiple. -/
theorem mod_succ_lt_iff (k n : ℕ) : k % (n + 1) < n ↔ ¬n + 1 ∣ k + 1 := by
  have hlt : k % (n + 1) < n + 1 := Nat.mod_lt k (Nat.succ_pos n)
  rw [Nat.dvd_iff_mod_eq_zero, ← Nat.mod_add_mod]
  constructor
  · intro h
    rw [Nat.mod_eq_of_lt (by omega)]
    omega
  · intro h
    by_contra hge
    have hlast : k % (n + 1) = n := by omega
    exact h (by rw [hlast, Nat.mod_self])

/-- In every interleaving of producers, workers and a shutdown, with wake-ups for no reason, an
access to `buffer.requests` stays within the slots that `server_init` allocated exactly if it does
not end a round of the ring. -/
theorem slot_access_in_bounds_iff (nrThreads maxRequests : ℕ) (slots : ℕ → ℤ) (s : Server)
    (hreach : Reachable nrThreads maxRequests slots s) (m : Move) (i : ℕ)
    (haccess : s.slotAccess m = some i) :
    i < slotsAllocated maxRequests ↔ ¬EndsRound maxRequests s m := by
  obtain ⟨-, hinp, hout⟩ := hreach.counted
  cases m with
  | producer p =>
    rw [slotAccess] at haccess
    split at haccess
    · rw [← Option.some.inj haccess, hinp]
      exact mod_succ_lt_iff _ _
    · cases haccess
  | worker w =>
    rw [slotAccess] at haccess
    split at haccess
    · rw [← Option.some.inj haccess, hout]
      exact mod_succ_lt_iff _ _
    · cases haccess
  | _ => cases haccess

/-- The moves of a run in which a ring of one slot passes its first connection on. -/
def firstRound : List Move :=
  [.request 0 7] ++ .replicate 6 (.producer 0) ++ .replicate 7 (.worker 0)

/-- The first connection is stored in the only slot. -/
theorem slot_access_in_bounds_of_first : ∃ s, Reachable 1 1 (fun _ ↦ 0) s ∧
    s.slotAccess (.producer 0) = some 0 ∧
      (0 < slotsAllocated 1 ↔ ¬EndsRound 1 s (.producer 0)) := by
  have hrun : (Machine.run (fun _ _ ↦ True) step (serverInit 1 1 fun _ ↦ 0)
      (firstRound.take 3)).map (fun s ↦ s.slotAccess (.producer 0)) = some (some 0) := by
    decide
  obtain ⟨s, hs, haccess⟩ := Option.map_eq_some_iff.mp hrun
  have hreach : Reachable 1 1 (fun _ ↦ 0) s := Machine.Reaches.of_run hs
  exact ⟨s, hreach, haccess, slot_access_in_bounds_iff 1 1 _ s hreach _ 0 haccess⟩

/-- The second connection is stored behind the only slot. -/
theorem slot_access_out_of_bounds : ¬∀ s, Reachable 1 1 (fun _ ↦ 0) s →
    ∀ m i, s.slotAccess m = some i → i < slotsAllocated 1 := by
  intro h
  have hrun : (Machine.run (fun _ _ ↦ True) step (serverInit 1 1 fun _ ↦ 0)
      (firstRound ++ firstRound.take 3)).map (fun s ↦ s.slotAccess (.producer 0)) =
        some (some 1) := by
    decide
  obtain ⟨s, hs, haccess⟩ := Option.map_eq_some_iff.mp hrun
  exact absurd (h s (Machine.Reaches.of_run hs) _ 1 haccess) (by decide)

end OperatingSystems.Webserver.Server
