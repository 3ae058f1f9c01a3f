import LowLatency.Disruptor.Accounting

/-!
# The producer against the processors: reads before the write, writes before the read

A processor reads the event of a sequence as soon as the cursor has reached it, and `next()`
itself moves the cursor. Between `next()` and `event.set(data)` a processor can therefore read an
event that is not written yet: `reads_after_set_iff` says that this window is the only one.
In the other direction nothing holds the producer back: `on_data` never looks at a processor's
`next_sequence_`. `no_overrun_of_room` is what a caller gets who calls `on_data` only while fewer
than `N` events are unconsumed: the producer is never a whole ring ahead of a processor.
-/

namespace LowLatency.Disruptor

variable {R : RingSize} {m n : Nat}

/-! ## Publication -/

/-- The event read is already written. -/
def ReadAfterSet : Ev m n → List (Ev m n) → Prop
  | .read _ q _, past => q ∈ setSeqs past
  | _, _ => True

instance (e : Ev m n) (past : List (Ev m n)) : Decidable (ReadAfterSet e past) := by
  cases e <;> simp only [ReadAfterSet] <;> infer_instance

/-- The step is not the read of the sequence that `on_data` has claimed and not yet written. -/
def NoEarlyRead (v : View R 1 n) : Act 1 n → Prop
  | .processor c => v.phase c = .body → ∀ data, v.calls 0 ≠ .claimed data (v.next c)
  | _ => True

theorem noEarlyRead_of_silent {v : View R 1 n} {a : Act 1 n} (h : v.Silent a) : NoEarlyRead v a := by
  cases a with
  | processor c => exact fun hb => absurd (h.symm.trans hb) (by simp)
  | _ => trivial

/-- A processor in the loop body finds its event written unless `on_data` stands just before the
write of that very sequence. -/
theorem Solo.next_mem_setSeqs {v : View R 1 n} (h : Solo v) {c : Fin n} (hc : v.phase c ≠ .outside) :
    v.next c ∈ setSeqs v.log ↔ ∀ data, v.calls 0 ≠ .claimed data (v.next c) := by
  have hb := h.body c hc
  have h0 := (h.next c).1
  rw [h.set, mem_upto]
  cases hcall : v.calls 0 with
  | idle => simp [OnData.setUpto]; omega
  | written q => simp [OnData.setUpto]; omega
  | claimed data q =>
    obtain rfl : q = v.cursor := h.last q (by simp [hcall, OnData.sequence?])
    simp [OnData.setUpto]; omega

theorem readAfterSet_step {v v' : View R 1 n} {a : Act 1 n} (h : Solo v) (hs : View.Step v a v') :
    Runs.Always ReadAfterSet v'.log ↔ Runs.Always ReadAfterSet v.log ∧ NoEarlyRead v a := by
  cases hs with
  | next p data hc => simp [Runs.always_snoc, ReadAfterSet, NoEarlyRead]
  | set p data q hc => simp [Runs.always_snoc, ReadAfterSet, NoEarlyRead]
  | publish p q hc => simp [Runs.always_snoc, ReadAfterSet, NoEarlyRead]
  | enter c hc hle => simp [NoEarlyRead, hc]
  | read c hc =>
    rw [Runs.always_snoc]
    simp only [ReadAfterSet, NoEarlyRead, hc, forall_const]
    rw [h.next_mem_setSeqs (by simp [hc])]
  | incr c hc => simp [Runs.always_snoc, ReadAfterSet, NoEarlyRead, hc]
  | quiet _ hsil => simp [noEarlyRead_of_silent hsil]
  | mark _ e hsil he =>
    rw [Runs.always_snoc]
    cases e <;> simp_all [Ev.isControl, ReadAfterSet, noEarlyRead_of_silent hsil]

/-- **Publication safety, exactly**: over a run, every event was written before it was read if and
only if no read step was taken between `next()` and `event.set(data)` of the same sequence. -/
theorem reads_after_set_iff {acts : List (Act 1 n)} {s : Sys R 1 n} (hc : .construct ∉ acts)
    (h : Sys.exec R 1 n acts = some s) :
    Runs.Always ReadAfterSet s.log ↔ RunMeets R 1 n NoEarlyRead acts :=
  view_exact (I := Solo) (P := fun v => Runs.Always ReadAfterSet v.log) (fun _ _ _ => solo_step)
    (fun _ _ _ => readAfterSet_step) solo_init (by simp) hc h

theorem reads_after_set_oneEvent : RunMeets ring2 1 1 NoEarlyRead oneEvent := by
  obtain ⟨s, hs, hlog⟩ := Option.map_eq_some_iff.1 (by decide : (Sys.exec ring2 1 1 oneEvent).map
    (fun s => decide (Runs.Always ReadAfterSet s.log)) = some true)
  exact (reads_after_set_iff (by decide) hs).1 (of_decide_eq_true hlog)

/-- The processor is at its loop test when `next()` has moved the cursor and `set` has not run. -/
def earlyRead : List (Act 1 1) :=
  [.start, .control, .control, .processor 0, .next 0 [65], .processor 0, .processor 0]

/-- The event of sequence 0 is read while the ring still holds the empty string. -/
theorem earlyRead_reads_unwritten :
    ∃ s, Sys.exec ring2 1 1 earlyRead = some s ∧ s.log = [.claim 0 0, .read 0 0 (some [])] ∧
      ¬ Runs.Always ReadAfterSet s.log := by
  obtain ⟨s, hs, hlog⟩ := Option.map_eq_some_iff.1 (by decide : (Sys.exec ring2 1 1 earlyRead).map Sys.log =
    some [.claim 0 0, .read 0 0 (some [])])
  exact ⟨s, hs, hlog, by rw [hlog]; decide⟩

/-! ## Overrun -/

/-- The write of sequence `q` finds sequence `q - N` consumed by every processor. -/
def SetAfterConsumed (N : Nat) : Ev m n → List (Ev m n) → Prop
  | .set _ q _, past => (N : Int) ≤ q → ∀ c, q - N ∈ consumed c past
  | _, _ => True

instance (N : Nat) (e : Ev m n) (past : List (Ev m n)) : Decidable (SetAfterConsumed N e past) := by
  cases e <;> simp only [SetAfterConsumed] <;> infer_instance

/-- `on_data` is called only while no processor is `N` events behind: the sequence it will claim is
less than `N` ahead of every `next_sequence_`. -/
def RoomLeft (v : View R m n) : Act m n → Prop
  | .next _ _ => ∀ c, v.cursor + 1 < v.next c + R.N
  | _ => True

instance (v : View R m n) : ∀ a : Act m n, Decidable (RoomLeft v a)
  | .next _ _ => inferInstanceAs (Decidable (∀ c, v.cursor + 1 < v.next c + R.N))
  | .set _ | .publish _ | .processor _ | .construct | .start | .halt | .control => .isTrue trivial

/-- The sequence in progress was claimed with room left. -/
structure Room (v : View R 1 n) : Prop extends Solo v where
  room : ∀ data q, v.calls 0 = .claimed data q → ∀ c, q < v.next c + R.N
  safe : Runs.Always (SetAfterConsumed R.N) v.log

theorem room_step {v v' : View R 1 n} {a : Act 1 n} (h : Room v) (hg : RoomLeft v a) (hs : View.Step v a v') :
    Room v' := by
  have hS := solo_step h.toSolo hs
  obtain ⟨⟨⟨-, -, -, hnext, -, hcons⟩, -, -, -⟩, hroom, hsafe⟩ := h
  cases hs with
  | next p data hc =>
    obtain rfl : p = 0 := Subsingleton.elim p 0
    refine ⟨hS, ?_, by simpa [Runs.always_snoc, SetAfterConsumed] using hsafe⟩
    intro data' q hq c
    obtain ⟨-, rfl⟩ : data = data' ∧ v.cursor + 1 = q := by simpa using hq
    exact hg c
  | set p data q hc =>
    obtain rfl : p = 0 := Subsingleton.elim p 0
    refine ⟨hS, by simp, Runs.always_snoc.2 ⟨hsafe, ?_⟩⟩
    intro hN c
    rw [hcons c, mem_upto]
    have := hroom data q hc c
    omega
  | publish p q hc =>
    obtain rfl : p = 0 := Subsingleton.elim p 0
    exact ⟨hS, by simp, by simpa [Runs.always_snoc, SetAfterConsumed] using hsafe⟩
  | enter c hc hle => exact ⟨hS, hroom, hsafe⟩
  | read c hc => exact ⟨hS, hroom, by simpa [Runs.always_snoc, SetAfterConsumed] using hsafe⟩
  | incr c hc =>
    refine ⟨hS, ?_, by simpa [Runs.always_snoc, SetAfterConsumed] using hsafe⟩
    intro data q hq c'
    have := hroom data q hq c'
    by_cases hcc : c' = c
    · subst hcc; simp; omega
    · simpa [hcc] using this
  | quiet _ hsil => exact ⟨hS, hroom, hsafe⟩
  | mark _ e hsil he =>
    refine ⟨hS, hroom, Runs.always_snoc.2 ⟨hsafe, ?_⟩⟩
    cases e <;> simp_all [Ev.isControl, SetAfterConsumed]

/-- `on_data` never waits: its three steps go through whatever the processors have consumed. -/
theorem onData_run {s : Sys R m n} {p : Fin m} (data : StdString) (h : (s.producers p).call = .idle) :
    ∃ s', Runs.run Sys.step s [.next p data, .set p, .publish p] = some s' ∧ (s'.producers p).call = .idle ∧
      s'.processors = s.processors ∧ (sets s'.log).map Prod.snd = (sets s.log).map Prod.snd ++ [data] := by
  simp [Runs.run, Sys.step, Sys.next, Sys.set, Sys.publish, h, Sys.setSequencer, Sys.setProducer, Sys.emit,
    Sys.setRing, sets, Ev.set?, List.filterMap_cons]

/-- **A caller that leaves room is never a whole ring ahead**: `on_data` itself never waits for a processor, but if
it is called only while fewer than `N` claimed events are unconsumed, every processor has consumed `q - N` when
the event of a sequence `q ≥ N` is written. Which slot these sequences have is another matter (`Ring`). -/
theorem no_overrun_of_room {acts : List (Act 1 n)} {s : Sys R 1 n} (hc : .construct ∉ acts)
    (h : Sys.exec R 1 n acts = some s) :
    (∀ data, (s.producers 0).call = .idle →
      ∃ s', Runs.run Sys.step s [.next 0 data, .set 0, .publish 0] = some s' ∧ s'.processors = s.processors) ∧
    (RunMeets R 1 n RoomLeft acts → Runs.Always (SetAfterConsumed R.N) s.log) := by
  constructor
  · intro data hidle
    obtain ⟨s', hrun, -, hproc, -⟩ := onData_run data hidle
    exact ⟨s', hrun, hproc⟩
  · intro hroom
    exact (view_inv_of_meets (fun _ _ _ => room_step) ⟨solo_init, by simp, by simp⟩ hc hroom h).2.2.safe

def ring1 : RingSize := ⟨1, by decide, by decide, by decide⟩

/-- The second event of a ring of one is written after the first has been consumed. -/
theorem no_overrun_of_room_lockstep :
    ∃ s, Sys.exec ring1 1 1 (oneEvent ++ [.next 0 [66], .set 0]) = some s ∧ setSeqs s.log = [0, 1] ∧
      Runs.Always (SetAfterConsumed 1) s.log := by
  obtain ⟨s, hs, hset⟩ := Option.map_eq_some_iff.1 (by decide :
    (Sys.exec ring1 1 1 (oneEvent ++ [.next 0 [66], .set 0])).map (fun s => setSeqs s.log) = some [0, 1])
  exact ⟨s, hs, hset, (no_overrun_of_room (by decide) hs).2 (by decide)⟩

/-- Three events go into a ring of two while the processor's thread has not taken a step. -/
def lapped : List (Act 1 1) :=
  [.start, .control, .control, .next 0 [65], .set 0, .publish 0, .next 0 [66], .set 0, .publish 0, .next 0 [67],
   .set 0]

/-- Sequence 2 is written although sequence 0 has not been consumed. -/
theorem lapped_overruns :
    ∃ s, Sys.exec ring2 1 1 lapped = some s ∧ setSeqs s.log = [0, 1, 2] ∧ consumed 0 s.log = [] ∧
      ¬ Runs.Always (SetAfterConsumed 2) s.log := by
  obtain ⟨s, hs, hlog⟩ := Option.map_eq_some_iff.1 (by decide +kernel : (Sys.exec ring2 1 1 lapped).map (fun s =>
    (setSeqs s.log, consumed 0 s.log, decide (Runs.Always (SetAfterConsumed 2) s.log))) = some ([0, 1, 2], [], false))
  simp only [Prod.mk.injEq, decide_eq_false_iff_not] at hlog
  exact ⟨s, hs, hlog⟩

end LowLatency.Disruptor
