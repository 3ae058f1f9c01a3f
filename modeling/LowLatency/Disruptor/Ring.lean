import Mathlib.Data.List.Induction
import LowLatency.Disruptor.MultiProducer
import LowLatency.Disruptor.Publication

/-!
# The ring: which slot a sequence goes to, and what is read back

`RingBuffer::get` subscripts with `sequence & N`, not `sequence & (N - 1)`: the subscript is `0` or
`N`. Two consequences, both exact:

* `ring_in_bounds_iff`: all accesses stay inside `buffer_` as long as only the sequences
  `0 … N - 1` are used; sequence `N`, the first of the second lap, is one past the end.
* `delivery_iff`: up to there all sequences share slot 0, so what is read for a sequence is the
  last string written, whichever sequence is asked for.
-/

namespace LowLatency.Disruptor

variable {R : RingSize} {m n : Nat}

/-! ## Bounds -/

theorem mem_accesses_of_mem_setSeqs {log : List (Ev m n)} {q : Int} (h : q ∈ setSeqs log) : q ∈ accesses log := by
  simp only [setSeqs, sets, List.mem_map, List.mem_filterMap] at h
  obtain ⟨w, ⟨e, he, hw⟩, rfl⟩ := h
  refine List.mem_filterMap.2 ⟨e, he, ?_⟩
  cases e <;> simp [Ev.set?] at hw
  subst hw; rfl

/-- Every subscript `RingBuffer::get` has computed is inside the array. -/
def InBounds (R : RingSize) (log : List (Ev m n)) : Prop := ∀ q ∈ accesses log, slot R.N q < R.N

instance (log : List (Ev m n)) : Decidable (InBounds R log) := by unfold InBounds; infer_instance

/-- The sequences of the first lap share slot 0. -/
theorem slot_first_lap {q : Int} (h0 : 0 ≤ q) (h : q < R.N) : slot R.N q = 0 := by
  obtain ⟨k, rfl⟩ := Int.eq_ofNat_of_zero_le h0
  exact slot_of_lt R (by omega)

theorem slot_lt_of_lt {q : Int} (h0 : 0 ≤ q) (h : q < R.N) : slot R.N q < R.N := by
  rw [slot_first_lap h0 h]
  exact R.pos

theorem inBounds_of_claimCount {acts : List (Act m n)} {s : Sys R m n} (hc : .construct ∉ acts)
    (h : Sys.exec R m n acts = some s) (hN : claimCount s.log ≤ R.N) : InBounds R s.log := by
  intro q hq
  obtain ⟨h0, hlt⟩ := (inRange_of_exec hc h).accesses q hq
  exact slot_lt_of_lt h0 (Int.lt_of_lt_of_le hlt hN)

/-- With one producer the claims are counted by the cursor. -/
theorem Solo.claimCount_eq {v : View R 1 n} (h : Solo v) : claimCount v.log = v.cursor + 1 := by
  have := h.low
  rw [claimCount, h.claims, length_upto]
  omega

/-- **Ring accesses in bounds, exactly**: no access of a run leaves `buffer_` if and only if every
sequence handed to `get` is below `N`. At most `N` calls of `on_data` are safe, and when none is in
progress, no more than `N` are. -/
theorem ring_in_bounds_iff {acts : List (Act 1 n)} {s : Sys R 1 n} (hc : .construct ∉ acts)
    (h : Sys.exec R 1 n acts = some s) :
    (InBounds R s.log ↔ ∀ q ∈ accesses s.log, q < R.N) ∧
    (claimCount s.log ≤ R.N → InBounds R s.log) ∧
    ((s.producers 0).call = .idle → InBounds R s.log → claimCount s.log ≤ R.N) := by
  have hsolo := (solo_of_exec hc h).2.2
  have hrange := (inRange_of_exec hc h).accesses
  have hcount := hsolo.claimCount_eq
  -- once a sequence past `N` is claimed, the event of `N` itself has been written, out of bounds
  have hset : InBounds R s.log → ¬ (R.N : Int) < (s.view.calls 0).setUpto s.view.cursor := fun hin hlt => by
    have hmem : (R.N : Int) ∈ setSeqs s.view.log := by
      rw [hsolo.set, mem_upto]
      exact ⟨Int.natCast_nonneg _, hlt⟩
    have := hin R.N (mem_accesses_of_mem_setSeqs hmem)
    rw [slot_self] at this
    exact Nat.lt_irrefl _ this
  refine ⟨⟨?_, fun hlt q hq => slot_lt_of_lt (hrange q hq).1 (hlt q hq)⟩,
    inBounds_of_claimCount hc h, ?_⟩
  · intro hin q hq
    by_contra hge
    have hne : q ≠ R.N := by
      rintro rfl
      have := hin _ hq
      rw [slot_self] at this
      exact Nat.lt_irrefl _ this
    have hle := (hrange q hq).2
    refine hset hin ?_
    cases hcall : s.view.calls 0 with
    | claimed data k =>
      have := hsolo.last k (by simp [hcall, OnData.sequence?])
      simp only [OnData.setUpto]; omega
    | idle => simp only [OnData.setUpto]; omega
    | written k => simp only [OnData.setUpto]; omega
  · intro hidle hin
    have hle := hset hin
    rw [show s.view.calls 0 = .idle from hidle] at hle
    simp only [OnData.setUpto] at hle
    show claimCount s.view.log ≤ R.N
    omega

theorem ring_in_bounds_oneEvent : ∃ s, Sys.exec ring2 1 1 oneEvent = some s ∧ InBounds ring2 s.log := by
  obtain ⟨s, hs, hcl⟩ := Option.map_eq_some_iff.1 (by decide :
    (Sys.exec ring2 1 1 oneEvent).map (fun s => claimCount s.log) = some 1)
  refine ⟨s, hs, (ring_in_bounds_iff (by decide) hs).2.1 ?_⟩
  rw [hcl]; decide

/-- The third event of a ring of two is written one past the end of the array. -/
theorem lapped_out_of_bounds :
    ∃ s, Sys.exec ring2 1 1 lapped = some s ∧ 2 ∈ accesses s.log ∧ slot ring2.N 2 = ring2.N ∧
      ¬ InBounds ring2 s.log := by
  obtain ⟨s, hs, hacc⟩ := Option.map_eq_some_iff.1 (by decide +kernel :
    (Sys.exec ring2 1 1 lapped).map (fun s => accesses s.log) = some [0, 1, 2])
  have hmem : 2 ∈ accesses s.log := by simp [hacc]
  have hslot : slot ring2.N 2 = ring2.N := slot_self ring2
  exact ⟨s, hs, hmem, hslot, fun hin => Nat.lt_irrefl _ (hslot ▸ hin 2 hmem)⟩

/-! ## What is read back -/

/-- The writes of a list, in order; `none` once one of them is out of bounds. -/
def RingBuffer.writes (rb : RingBuffer R) (ws : List (Int × StdString)) : Option (RingBuffer R) :=
  ws.foldlM (fun rb w => rb.write w.1 w.2) rb

theorem writes_snoc (rb : RingBuffer R) (ws : List (Int × StdString)) (q : Int) (data : StdString) :
    rb.writes (ws ++ [(q, data)]) = (rb.writes ws).bind (·.write q data) := by
  simp only [RingBuffer.writes, List.foldlM_append, List.foldlM_cons, List.foldlM_nil]
  cases ws.foldlM (fun rb w => rb.write w.1 w.2) rb with
  | none => rfl
  | some rb' => simp [bind, pure]

/-- The ring is what the event writes so far make of it. -/
theorem ring_eq_writes {acts : List (Act m n)} {s : Sys R m n} (hc : .construct ∉ acts)
    (h : Sys.exec R m n acts = some s) : s.ring = (RingBuffer.new R).writes (sets s.log) := by
  refine (view_inv (I := fun v => v.ring = (RingBuffer.new R).writes (sets v.log)) ?_ rfl hc h).2.2
  intro v a v' hi hs
  cases hs with
  | next p data hc => simpa [Ev.set?] using hi
  | set p data q hc => simp [Ev.set?, writes_snoc, hi]
  | publish p q hc => simpa [Ev.set?] using hi
  | enter c hc hle => exact hi
  | read c hc => simpa [Ev.set?] using hi
  | incr c hc => simpa [Ev.set?] using hi
  | quiet _ hsil => exact hi
  | mark _ e hsil he => simpa [(isControl_none he).2.1] using hi

/-- The strings written, in order. -/
def written (log : List (Ev m n)) : List StdString := (sets log).map Prod.snd

theorem write_first_lap (rb : RingBuffer R) {q : Int} (h0 : 0 ≤ q) (h : q < R.N) (data : StdString) :
    rb.write q data = some ⟨Function.update rb.buffer ⟨0, R.pos⟩ ⟨data⟩⟩ := by
  have hs := slot_first_lap h0 h
  simp [RingBuffer.write, hs, R.pos]

theorem read_first_lap (rb : RingBuffer R) {q : Int} (h0 : 0 ≤ q) (h : q < R.N) :
    rb.read q = some (rb.buffer ⟨0, R.pos⟩).value := by
  have hs := slot_first_lap h0 h
  simp [RingBuffer.read, hs, R.pos]

theorem writes_some (ws : List (Int × StdString)) (rb : RingBuffer R) (h : ∀ w ∈ ws, 0 ≤ w.1 ∧ w.1 < R.N) :
    ∃ rb', rb.writes ws = some rb' := by
  induction ws generalizing rb with
  | nil => exact ⟨rb, rfl⟩
  | cons w ws ih =>
    have hw := h w (by simp)
    obtain ⟨rb', hrb'⟩ := ih _ fun x hx => h x (by simp [hx])
    refine ⟨rb', ?_⟩
    rw [RingBuffer.writes, List.foldlM_cons, write_first_lap rb hw.1 hw.2]
    exact hrb'

/-- Writes of the first lap all go to slot 0: every sequence of the lap reads the last of them. -/
theorem writes_first_lap (rb : RingBuffer R) (ws : List (Int × StdString))
    (hws : ∀ w ∈ ws, 0 ≤ w.1 ∧ w.1 < R.N) (hne : ws ≠ []) :
    ∃ rb', rb.writes ws = some rb' ∧ ∀ q : Int, 0 ≤ q → q < R.N → rb'.read q = (ws.map Prod.snd).getLast? := by
  obtain ⟨ws', w, rfl⟩ := (List.eq_nil_or_concat' ws).resolve_left hne
  obtain ⟨rb₁, h₁⟩ := writes_some ws' rb fun x hx => hws x (by simp [hx])
  have hw := hws w (by simp)
  refine ⟨_, by rw [writes_snoc, h₁, Option.bind_some, write_first_lap rb₁ hw.1 hw.2], ?_⟩
  intro q h0 h
  rw [read_first_lap _ h0 h]
  simp

/-- Sequence `N` is out of bounds: after its write the ring is undefined. -/
theorem writes_none (ws : List (Int × StdString)) (rb : RingBuffer R) (h : (R.N : Int) ∈ ws.map Prod.fst) :
    rb.writes ws = none := by
  induction ws generalizing rb with
  | nil => simp at h
  | cons w ws ih =>
    rw [RingBuffer.writes, List.foldlM_cons]
    cases hw : rb.write w.1 w.2 with
    | none => rfl
    | some rb' =>
      apply ih rb'
      rcases List.mem_cons.1 h with h | h
      · rw [← h, RingBuffer.write, dif_neg (by rw [slot_self]; exact Nat.lt_irrefl _)] at hw
        cases hw
      · exact h

/-- The event writes of a single producer are numbered `0, 1, …`. -/
theorem setSeqs_eq_upto {acts : List (Act 1 n)} {s : Sys R 1 n} (hc : .construct ∉ acts)
    (h : Sys.exec R 1 n acts = some s) : setSeqs s.log = upto (written s.log).length := by
  have hset : setSeqs s.log = upto _ := (solo_of_exec hc h).2.2.set
  have hlen : (setSeqs s.log).length = (written s.log).length := by simp [setSeqs, written]
  rw [← hlen]
  exact eq_upto_length hset

/-- What is read for a sequence, after any run of a single producer. -/
theorem readRing_iff {acts : List (Act 1 n)} {s : Sys R 1 n} (hc : .construct ∉ acts)
    (h : Sys.exec R 1 n acts = some s) {q : Nat} (hq : q < (written s.log).length) :
    s.readRing q = (written s.log)[q]? ↔
      (written s.log).length ≤ R.N ∧ (written s.log)[q]? = (written s.log).getLast? := by
  have hfst := setSeqs_eq_upto hc h
  unfold Sys.readRing
  rw [ring_eq_writes hc h]
  by_cases hN : (written s.log).length ≤ R.N
  · have hws : ∀ w ∈ sets s.log, 0 ≤ w.1 ∧ w.1 < R.N := fun w hw => by
      have := List.mem_map_of_mem (f := Prod.fst) hw
      rw [show (sets s.log).map Prod.fst = _ from hfst, mem_upto] at this
      omega
    have hne : sets s.log ≠ [] := fun hnil => by simp [written, hnil] at hq
    obtain ⟨rb, hrb, hread⟩ := writes_first_lap (RingBuffer.new R) _ hws hne
    rw [hrb, Option.bind_some, hread q (by omega) (by omega), and_iff_right hN, eq_comm]
    rfl
  · have hmem : (R.N : Int) ∈ (sets s.log).map Prod.fst := by
      rw [show (sets s.log).map Prod.fst = _ from hfst, mem_upto]
      omega
    rw [writes_none _ _ hmem, Option.bind_none, List.getElem?_eq_getElem hq]
    simp [hN]

/-! ## A batch -/

/-- The reads of processor `c`: sequence and value. -/
def readsOf (c : Fin n) (log : List (Ev m n)) : List (Int × Option StdString) :=
  log.filterMap fun
    | .read c' q v => if c' = c then some (q, v) else none
    | _ => none

/-- The processor takes `t` rounds of its inner loop while nobody else steps. -/
def catchUp (c : Fin n) (t : Nat) : List (Act m n) := List.replicate (3 * t) (.processor c)

/-- One round of the inner loop: test, read, increment. -/
theorem round_run {s : Sys R m n} {c : Fin n} {q : Int} {r : Bool} {a : Nat}
    (hpc : s.processors c = ⟨r, q, a, .inner⟩) (hle : q ≤ s.cursorOf c) :
    ∃ s', Runs.run Sys.step s (List.replicate 3 (.processor c)) = some s' ∧
      s'.processors c = ⟨r, q + 1, a, .inner⟩ ∧ s'.sequencers = s.sequencers ∧ s'.ring = s.ring ∧
      readsOf c s'.log = readsOf c s.log ++ [(q, s.readRing q)] := by
  have h1 : s.step (.processor c) = some (s.setProcessor c ⟨r, q, a, .body⟩) := by
    simp [Sys.step, Sys.processor, hpc, hle, EventProcessor.goto]
  have h2 : (s.setProcessor c ⟨r, q, a, .body⟩).step (.processor c) =
      some ((s.setProcessor c ⟨r, q, a, .incr⟩).emit (.read c q (s.readRing q))) := by
    simp [Sys.step, Sys.processor, Sys.setProcessor, EventProcessor.goto, Sys.readRing]
  have h3 : ((s.setProcessor c ⟨r, q, a, .incr⟩).emit (.read c q (s.readRing q))).step (.processor c) =
      some (((s.setProcessor c ⟨r, q + 1, a, .inner⟩).emit (.read c q (s.readRing q))).emit (.consume c q)) := by
    simp [Sys.step, Sys.processor, Sys.setProcessor, Sys.emit, EventProcessor.advance]
  refine ⟨_, Runs.run_cons.2 ⟨_, h1, Runs.run_cons.2 ⟨_, h2, Runs.run_cons.2 ⟨_, h3, rfl⟩⟩⟩, ?_, rfl, rfl, ?_⟩
  · simp [Sys.emit, Sys.setProcessor]
  · simp [Sys.emit, Sys.setProcessor, readsOf]

/-- A batch of `t` rounds reads the next `t` sequences in order, as the ring holds them. -/
theorem catchUp_run {c : Fin n} {r : Bool} {a : Nat} (t : Nat) {s : Sys R m n} {q : Nat}
    (hpc : s.processors c = ⟨r, q, a, .inner⟩) (hle : (q : Int) + t ≤ (s.sequencers a).cursor + 1) :
    ∃ s', Runs.run Sys.step s (catchUp c t) = some s' ∧
      readsOf c s'.log = readsOf c s.log ++ (List.range' q t).map fun i : Nat => ((i : Int), s.readRing i) := by
  induction t generalizing s q with
  | zero => exact ⟨s, rfl, by simp⟩
  | succ t ih =>
    have hcur : (q : Int) ≤ s.cursorOf c := by rw [Sys.cursorOf, hpc]; dsimp only; omega
    obtain ⟨s₁, h₁, hp₁, hs₁, hr₁, hl₁⟩ := round_run hpc hcur
    obtain ⟨s', h', hl'⟩ := ih (q := q + 1) hp₁ (by rw [hs₁]; push_cast; omega)
    refine ⟨s', ?_, ?_⟩
    · rw [catchUp, Nat.mul_succ, Nat.add_comm, List.replicate_add]
      exact Runs.run_append.2 ⟨s₁, h₁, h'⟩
    · rw [hl', hl₁, List.range'_succ]
      simp [Sys.readRing, hr₁]

/-- The written events are never ahead of the cursor. -/
theorem written_le_cursor {acts : List (Act 1 n)} {s : Sys R 1 n} (hc : .construct ∉ acts)
    (h : Sys.exec R 1 n acts = some s) : ((written s.log).length : Int) ≤ s.cursor + 1 := by
  have hcount := (solo_of_exec hc h).2.2.claimCount_eq
  by_contra hlt
  have hmem : ((written s.log).length : Int) - 1 ∈ setSeqs s.log := by
    have := (solo_of_exec hc h).2.2.low
    rw [setSeqs_eq_upto hc h, mem_upto]
    change ¬ _ ≤ s.view.cursor + 1 at hlt
    omega
  have := ((inRange_of_exec hc h).accesses _ (mem_accesses_of_mem_setSeqs hmem)).2
  change ¬ _ ≤ s.view.cursor + 1 at hlt
  omega

/-- **Delivery through the ring, exactly**: after any run in which the strings `d_0 … d_(k-1)` were
written, the event read for a sequence `q < k` is `d_q` if and only if `k ≤ N` and `d_q` equals the
last string `d_(k-1)`; and a processor that starts at `j` and catches up in one batch reads each
event's own data in order if and only if that holds for every `q` of the batch. -/
theorem delivery_iff {acts : List (Act 1 n)} {s : Sys R 1 n} (hc : .construct ∉ acts)
    (h : Sys.exec R 1 n acts = some s) :
    (∀ q : Nat, q < (written s.log).length →
      (s.readRing q = (written s.log)[q]? ↔
        (written s.log).length ≤ R.N ∧ (written s.log)[q]? = (written s.log).getLast?)) ∧
    (∀ (c : Fin n) (j : Nat), (s.processors c).pc = .inner → (s.processors c).nextSequence = j →
      j ≤ (written s.log).length →
      ∃ s', Runs.run Sys.step s (catchUp c ((written s.log).length - j)) = some s' ∧
        (readsOf c s'.log = readsOf c s.log ++
            (List.range' j ((written s.log).length - j)).map (fun i : Nat => ((i : Int), (written s.log)[i]?)) ↔
          ∀ q, j ≤ q → q < (written s.log).length →
            (written s.log).length ≤ R.N ∧ (written s.log)[q]? = (written s.log).getLast?)) := by
  refine ⟨fun q hq => readRing_iff hc h hq, ?_⟩
  intro c j hpc hnext hj
  have hseq := (solo_of_exec hc h).1.processors c
  rcases hproc : s.processors c with ⟨r, q, a, pc⟩
  rw [hproc] at hpc hnext hseq
  dsimp only at hpc hnext hseq
  subst hpc hnext hseq
  have hcur := written_le_cursor hc h
  obtain ⟨s', hrun, hreads⟩ := catchUp_run ((written s.log).length - j) hproc (by
    change _ ≤ s.cursor + 1
    omega)
  refine ⟨s', hrun, ?_⟩
  rw [hreads, List.append_cancel_left_eq, List.map_inj_left]
  constructor
  · intro heq q hjq hq
    have := heq q (by simp; omega)
    rw [Prod.mk.injEq] at this
    exact (readRing_iff hc h hq).1 this.2
  · intro hall i hi
    rw [List.mem_range'_1] at hi
    rw [(readRing_iff hc h (by omega)).2 (hall i hi.1 (by omega))]

/-- Successive calls of `on_data`, one after the other. -/
def onDataAll (ds : List StdString) : List (Act 1 n) :=
  ds.flatMap fun data => [.next 0 data, .set 0, .publish 0]

/-- Every list of strings is written by some run: `on_data` never blocks. -/
theorem exec_onDataAll (ds : List StdString) :
    ∃ s, Sys.exec R 1 n (onDataAll ds) = some s ∧ (s.producers 0).call = .idle ∧ written s.log = ds := by
  induction ds using List.reverseRecOn with
  | nil => exact ⟨_, rfl, rfl, rfl⟩
  | append_singleton ds data ih =>
    obtain ⟨s, hs, hidle, hw⟩ := ih
    obtain ⟨s', hs', hidle', -, hw'⟩ := onData_run data hidle
    refine ⟨s', ?_, hidle', by rw [written, hw', ← written, hw]⟩
    rw [onDataAll, List.flatMap_append]
    exact Runs.run_append.2 ⟨s, hs, by simpa using hs'⟩

/-- Two equal strings fill a ring of two while the processor is at its loop test; it reads both in one batch. -/
theorem delivery_twoEvents :
    ∃ s s', Sys.exec ring2 1 1 ([.start, .control, .control, .processor 0] ++ onDataAll [[65], [65]]) = some s ∧
      Runs.run Sys.step s (catchUp 0 2) = some s' ∧ readsOf 0 s'.log = [(0, some [65]), (1, some [65])] := by
  obtain ⟨s, hs, hrun⟩ := Option.map_eq_some_iff.1 (by decide +kernel :
    (Sys.exec ring2 1 1 ([.start, .control, .control, .processor 0] ++ onDataAll [[65], [65]])).map (fun s =>
      (written s.log, readsOf 0 s.log, (s.processors 0).pc, (s.processors 0).nextSequence)) =
        some ([[65], [65]], [], .inner, 0))
  simp only [Prod.mk.injEq] at hrun
  obtain ⟨hw, hreads, hpc, hnext⟩ := hrun
  obtain ⟨-, hbatch⟩ := delivery_iff (by decide) hs
  obtain ⟨s', hs', hiff⟩ := hbatch 0 0 hpc hnext (Nat.zero_le _)
  rw [hw] at hs' hiff
  have hown := hiff.2 (by decide)
  rw [hreads] at hown
  exact ⟨s, s', hs, hs', hown⟩

/-- Two strings in a ring of two: the event of sequence 0 reads as the second string. -/
theorem two_strings_share_a_slot :
    ∃ s, Sys.exec ring2 1 1 (onDataAll [[65], [66]]) = some s ∧ written s.log = [[65], [66]] ∧
      s.readRing 0 = some [66] := by
  obtain ⟨s, hs, hw⟩ := Option.map_eq_some_iff.1 (by decide +kernel :
    (Sys.exec ring2 1 1 (onDataAll [[65], [66]])).map (fun s => (written s.log, s.readRing 0)) =
      some ([[65], [66]], some [66]))
  rw [Prod.mk.injEq] at hw
  exact ⟨s, hs, hw⟩

end LowLatency.Disruptor
