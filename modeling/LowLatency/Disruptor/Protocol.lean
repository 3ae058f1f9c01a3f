import Mathlib.Data.List.Nodup
import LowLatency.Disruptor.System

/-!
# One attached `Sequencer`: the sequence protocol

As long as no Disruptor is constructed, all producers and processors stay attached to the one
`Sequencer` of the initial state (`Attached`), and of the control thread's work only the order
of its visible events matters. `View` is what is then left of a state: the cursor, the ring, the
point of each `on_data` call, each processor's `next_sequence_` with its place in the loop body,
and the log. `View.Step` says everything a step can do to it, and `step_view` is the simulation:
every step of the system is a step of the protocol. The accounting, publication, ring and
overrun results are all about `View.Step`.

The lists read off a log (`claims`, `sets`, `publishes`, `consumed`, `accesses`) keep the order of
the log.
-/

namespace LowLatency.Disruptor

variable {R : RingSize} {m n : Nat}

/-! ## Reading a log -/

def Ev.claimed? : Ev m n → Option Int
  | .claim _ q => some q
  | _ => none

def Ev.set? : Ev m n → Option (Int × StdString)
  | .set _ q d => some (q, d)
  | _ => none

def Ev.published? : Ev m n → Option Int
  | .publish _ q => some q
  | _ => none

def Ev.consumed? (c : Fin n) : Ev m n → Option Int
  | .consume c' q => if c' = c then some q else none
  | _ => none

/-- The sequence handed to `RingBuffer::get`, by a producer or by a processor. -/
def Ev.access? : Ev m n → Option Int
  | .set _ q _ => some q
  | .read _ q _ => some q
  | _ => none

/-- Events of the control thread. -/
def Ev.isControl : Ev m n → Bool
  | .halt | .cleared _ _ _ | .halted => true
  | _ => false

/-- The sequences `next()` returned. -/
def claims (log : List (Ev m n)) : List Int := log.filterMap Ev.claimed?

/-- The event writes: sequence and data. -/
def sets (log : List (Ev m n)) : List (Int × StdString) := log.filterMap Ev.set?

/-- The sequences whose event is written. -/
def setSeqs (log : List (Ev m n)) : List Int := (sets log).map Prod.fst

def publishes (log : List (Ev m n)) : List Int := log.filterMap Ev.published?

/-- The sequences processor `c` has consumed. -/
def consumed (c : Fin n) (log : List (Ev m n)) : List Int := log.filterMap (Ev.consumed? c)

/-- The arguments of every `RingBuffer::get` call. -/
def accesses (log : List (Ev m n)) : List Int := log.filterMap Ev.access?

theorem filterMap_snoc {α β : Type*} (f : α → Option β) (l : List α) (a : α) :
    (l ++ [a]).filterMap f = l.filterMap f ++ (f a).toList := by
  cases h : f a <;> simp [h]

section
variable (log : List (Ev m n)) (e : Ev m n)

@[simp] theorem claims_snoc : claims (log ++ [e]) = claims log ++ e.claimed?.toList := filterMap_snoc _ _ _

@[simp] theorem sets_snoc : sets (log ++ [e]) = sets log ++ e.set?.toList := filterMap_snoc _ _ _

@[simp] theorem setSeqs_snoc : setSeqs (log ++ [e]) = setSeqs log ++ (e.set?.map Prod.fst).toList := by
  rw [setSeqs, sets_snoc, List.map_append, setSeqs]
  cases e.set? <;> rfl

@[simp] theorem publishes_snoc : publishes (log ++ [e]) = publishes log ++ e.published?.toList :=
  filterMap_snoc _ _ _

@[simp] theorem consumed_snoc (c : Fin n) : consumed c (log ++ [e]) = consumed c log ++ (e.consumed? c).toList :=
  filterMap_snoc _ _ _

@[simp] theorem accesses_snoc : accesses (log ++ [e]) = accesses log ++ e.access?.toList := filterMap_snoc _ _ _

end

/-- The control thread's events are in none of the lists. -/
theorem isControl_none {e : Ev m n} (h : e.isControl = true) :
    e.claimed? = none ∧ e.set? = none ∧ e.published? = none ∧ (∀ c, e.consumed? c = none) ∧ e.access? = none := by
  cases e <;> simp [Ev.isControl] at h <;> exact ⟨rfl, rfl, rfl, fun _ => rfl, rfl⟩

/-- `0, 1, …, k - 1`. -/
def upto (k : Int) : List Int := (List.range k.toNat).map Nat.cast

@[simp] theorem upto_zero : upto 0 = [] := rfl

theorem upto_succ {k : Int} (h : 0 ≤ k) : upto (k + 1) = upto k ++ [k] := by
  have : (k + 1).toNat = k.toNat + 1 := by omega
  rw [upto, upto, this, List.range_succ, List.map_append]
  simp [Int.max_eq_left h]

@[simp] theorem mem_upto {k q : Int} : q ∈ upto k ↔ 0 ≤ q ∧ q < k := by
  simp only [upto, List.mem_map, List.mem_range]
  constructor
  · rintro ⟨i, hi, rfl⟩; omega
  · rintro ⟨h0, hk⟩; exact ⟨q.toNat, by omega, by omega⟩

@[simp] theorem length_upto (k : Int) : (upto k).length = k.toNat := by simp [upto]

/-- A list of that form is determined by its length. -/
theorem eq_upto_length {l : List Int} {k : Int} (h : l = upto k) : l = upto l.length := by
  rw [h, length_upto]
  simp only [upto, Int.toNat_natCast]

theorem eq_of_getElem?_upto {k q : Int} {i : Nat} (h : (upto k)[i]? = some q) : q = i := by
  obtain ⟨hi, rfl⟩ := List.getElem?_eq_some_iff.1 h
  simp [upto]

theorem nodup_upto (k : Int) : (upto k).Nodup :=
  List.Nodup.map (fun _ _ => Int.ofNat.inj) List.nodup_range

/-! ## What is left of a state -/

/-- Where a processor stands relative to the body of the inner loop. -/
inductive Phase where
  | outside | body | incr
deriving DecidableEq

def RunPC.phase : RunPC → Phase
  | .body => .body
  | .incr => .incr
  | _ => .outside

structure View (R : RingSize) (m n : Nat) where
  cursor : Int
  ring : Option (RingBuffer R)
  calls : Fin m → OnData
  next : Fin n → Int
  phase : Fin n → Phase
  log : List (Ev m n)

theorem phase_of_inBody {pc : RunPC} (h : pc.inBody = true) : pc.phase ≠ .outside := by
  cases pc <;> simp [RunPC.inBody, RunPC.phase] at h ⊢

/-- Everyone uses the `Sequencer` at address 0 and no constructor is at work. -/
structure Attached (s : Sys R m n) : Prop where
  producers : ∀ p, (s.producers p).sequencer = 0
  processors : ∀ c, (s.processors c).sequencer = 0
  op : ∀ i, s.control.op ≠ some (.ctor i)

def Sys.view (s : Sys R m n) : View R m n where
  cursor := (s.sequencers 0).cursor
  ring := s.ring
  calls := fun p => (s.producers p).call
  next := fun c => (s.processors c).nextSequence
  phase := fun c => (s.processors c).pc.phase
  log := s.log

/-- A step that only the threads' control flow sees. -/
def View.Silent (v : View R m n) : Act m n → Prop
  | .processor c => v.phase c = .outside
  | .start | .halt | .control => True
  | _ => False

/-- Everything a step can do. -/
inductive View.Step (v : View R m n) : Act m n → View R m n → Prop where
  | next (p : Fin m) (data : StdString) (h : v.calls p = .idle) :
      Step v (.next p data) { v with
        cursor := v.cursor + 1
        calls := Function.update v.calls p (.claimed data (v.cursor + 1))
        log := v.log ++ [.claim p (v.cursor + 1)] }
  | set (p : Fin m) (data : StdString) (q : Int) (h : v.calls p = .claimed data q) :
      Step v (.set p) { v with
        ring := v.ring.bind (·.write q data)
        calls := Function.update v.calls p (.written q)
        log := v.log ++ [.set p q data] }
  | publish (p : Fin m) (q : Int) (h : v.calls p = .written q) :
      Step v (.publish p) { v with
        cursor := q
        calls := Function.update v.calls p .idle
        log := v.log ++ [.publish p q] }
  /-- the inner loop test passes -/
  | enter (c : Fin n) (h : v.phase c = .outside) (hle : v.next c ≤ v.cursor) :
      Step v (.processor c) { v with phase := Function.update v.phase c .body }
  | read (c : Fin n) (h : v.phase c = .body) :
      Step v (.processor c) { v with
        phase := Function.update v.phase c .incr
        log := v.log ++ [.read c (v.next c) (v.ring.bind (·.read (v.next c)))] }
  | incr (c : Fin n) (h : v.phase c = .incr) :
      Step v (.processor c) { v with
        next := Function.update v.next c (v.next c + 1)
        phase := Function.update v.phase c .outside
        log := v.log ++ [.consume c (v.next c)] }
  | quiet (a : Act m n) (h : v.Silent a) : Step v a v
  | mark (a : Act m n) (e : Ev m n) (h : v.Silent a) (he : e.isControl = true) :
      Step v a { v with log := v.log ++ [e] }

/-- What a `publish` does to the cursor. -/
theorem View.Step.publish_cursor {v v' : View R m n} {p : Fin m} (h : View.Step v (.publish p) v') :
    ∃ q, v.calls p = .written q ∧ v'.cursor = q := by
  cases h with
  | publish _ q hc => exact ⟨q, hc, rfl⟩
  | quiet _ hsil => exact hsil.elim
  | mark _ e hsil _ => exact hsil.elim

/-! ## The simulation -/

theorem attached_init : Attached (Sys.init R m n) := ⟨fun _ => rfl, fun _ => rfl, fun _ => nofun⟩

@[simp] theorem view_init :
    (Sys.init R m n).view = ⟨-1, some (RingBuffer.new R), fun _ => .idle, fun _ => 0, fun _ => .outside, []⟩ :=
  rfl

section
variable {s : Sys R m n}

theorem Attached.setSequencer (hs : Attached s) (a : Nat) (q : Sequencer) : Attached (s.setSequencer a q) :=
  ⟨hs.producers, hs.processors, hs.op⟩

theorem Attached.setRing (hs : Attached s) (ring : Option (RingBuffer R)) : Attached (s.setRing ring) :=
  ⟨hs.producers, hs.processors, hs.op⟩

theorem Attached.emit (hs : Attached s) (e : Ev m n) : Attached (s.emit e) :=
  ⟨hs.producers, hs.processors, hs.op⟩

theorem Attached.setControl (hs : Attached s) {ctl : Control} (h : ∀ i, ctl.op ≠ some (.ctor i)) :
    Attached (s.setControl ctl) :=
  ⟨hs.producers, hs.processors, h⟩

theorem Attached.setProducer (hs : Attached s) (p : Fin m) (call : OnData) :
    Attached (s.setProducer p ((s.producers p).goto call)) :=
  ⟨(Function.forall_update_iff s.producers fun _ pr => pr.sequencer = 0).2
    ⟨hs.producers p, fun p' _ => hs.producers p'⟩, hs.processors, hs.op⟩

theorem Attached.setProcessor (hs : Attached s) (c : Fin n) (e : EventProcessor)
    (he : e.sequencer = (s.processors c).sequencer) : Attached (s.setProcessor c e) :=
  ⟨hs.producers, forall_processors (P := fun _ e => e.sequencer = 0) (he.trans (hs.processors c))
    fun c' _ => hs.processors c', hs.op⟩

@[simp] theorem view_setSequencer (q : Sequencer) :
    (s.setSequencer 0 q).view = { s.view with cursor := q.cursor } := by
  simp [Sys.view, Sys.setSequencer]

@[simp] theorem view_setRing (ring : Option (RingBuffer R)) :
    (s.setRing ring).view = { s.view with ring := ring } := rfl

@[simp] theorem view_emit (e : Ev m n) : (s.emit e).view = { s.view with log := s.view.log ++ [e] } := rfl

@[simp] theorem view_setControl (ctl : Control) : (s.setControl ctl).view = s.view := rfl

@[simp] theorem view_setProducer (p : Fin m) (pr : Producer) :
    (s.setProducer p pr).view = { s.view with calls := Function.update s.view.calls p pr.call } := by
  simp only [Sys.view, Sys.setProducer, View.mk.injEq, true_and, and_true]
  funext p'
  exact Function.apply_update (fun _ => Producer.call) s.producers p pr p'

@[simp] theorem view_setProcessor (c : Fin n) (e : EventProcessor) :
    (s.setProcessor c e).view = { s.view with
      next := Function.update s.view.next c e.nextSequence
      phase := Function.update s.view.phase c e.pc.phase } := by
  simp only [Sys.view, Sys.setProcessor, View.mk.injEq, true_and, and_true]
  constructor
  · funext c'
    exact Function.apply_update (fun _ => EventProcessor.nextSequence) s.processors c e c'
  · funext c'
    exact Function.apply_update (fun _ e => e.pc.phase) s.processors c e c'

/-- A thread moves on. -/
theorem view_goto (c : Fin n) (pc : RunPC) :
    (s.setProcessor c ((s.processors c).goto pc)).view =
      { s.view with phase := Function.update s.view.phase c pc.phase } := by
  rw [view_setProcessor]
  simp [Sys.view]

/-- A thread moves on outside the body of the inner loop. -/
theorem view_goto_same {c : Fin n} {pc : RunPC} (h : pc.phase = (s.processors c).pc.phase) :
    (s.setProcessor c ((s.processors c).goto pc)).view = s.view := by
  rw [view_goto, h]
  simp [Sys.view]

end

/-- **Simulation**: a step of the attached system, other than the construction of a new Disruptor,
is a step of the protocol. -/
theorem step_view {s s' : Sys R m n} {a : Act m n} (hs : Attached s) (ht : Threads s) (ha : a ≠ .construct)
    (h : s.step a = some s') : Attached s' ∧ View.Step s.view a s'.view := by
  cases step_some h with
  | next p data q hc hq =>
    refine ⟨((hs.setSequencer _ _).setProducer p _).emit _, ?_⟩
    rw [hs.producers p] at hq ⊢
    subst hq
    rw [view_emit, view_setProducer, view_setSequencer]
    exact .next p data hc
  | set p data q hc =>
    refine ⟨((hs.setRing _).setProducer p _).emit _, ?_⟩
    rw [view_emit, view_setProducer, view_setRing]
    exact .set p data q hc
  | publish p q hc =>
    refine ⟨((hs.setSequencer _ _).setProducer p _).emit _, ?_⟩
    rw [hs.producers p, view_emit, view_setProducer, view_setSequencer]
    exact .publish p q hc
  | run c hpc hr =>
    refine ⟨hs.setProcessor c _ rfl, ?_⟩
    rw [view_goto_same (by rw [hpc]; rfl)]
    exact .quiet _ (congrArg RunPC.phase hpc)
  | leave c hpc hr =>
    refine ⟨hs.setProcessor c _ rfl, ?_⟩
    rw [view_goto_same (by rw [hpc]; rfl)]
    exact .quiet _ (congrArg RunPC.phase hpc)
  | enter c hpc hle =>
    refine ⟨hs.setProcessor c _ rfl, ?_⟩
    rw [Sys.cursorOf, hs.processors c] at hle
    rw [view_goto]
    exact .enter c (congrArg RunPC.phase hpc) hle
  | drained c hpc hlt =>
    refine ⟨hs.setProcessor c _ rfl, ?_⟩
    rw [view_goto_same (by rw [hpc]; rfl)]
    exact .quiet _ (congrArg RunPC.phase hpc)
  | read c hpc =>
    refine ⟨(hs.setProcessor c _ (by rfl)).emit _, ?_⟩
    rw [view_emit, view_goto]
    exact .read c (congrArg RunPC.phase hpc)
  | incr c hpc =>
    refine ⟨(hs.setProcessor c _ (by rfl)).emit _, ?_⟩
    rw [view_emit, view_setProcessor]
    exact .incr c (congrArg RunPC.phase hpc)
  | construct started hctl => exact absurd rfl ha
  | start hctl => exact ⟨hs.setControl (by simp), .quiet _ trivial⟩
  | halt hctl => exact ⟨(hs.setControl (by simp)).emit _, .mark _ .halt trivial rfl⟩
  | attachProcessor c started hctl => exact absurd (congrArg Control.op hctl) (hs.op c)
  | attachProducer p started i hi hctl => exact absurd (congrArg Control.op hctl) (hs.op i)
  | constructed started i hctl => exact absurd (congrArg Control.op hctl) (hs.op i)
  | spawn started c hctl =>
    have hdown : (s.processors c).pc = .none := ht c (by rw [hctl]; exact Nat.le_refl _)
    refine ⟨(hs.setProcessor c _ (by rfl)).setControl (by simp), ?_⟩
    rw [view_setControl, view_goto_same (by rw [hdown]; rfl)]
    exact .quiet _ trivial
  | started started i hi hctl => exact ⟨hs.setControl (by simp), .quiet _ trivial⟩
  | clear started c hctl =>
    refine ⟨((hs.setProcessor c _ (by rfl)).setControl (by simp)).emit _, ?_⟩
    have hv : (s.setProcessor c (s.processors c).halt).view = s.view := by
      rw [view_setProcessor]
      simp [Sys.view]
    rw [view_emit, view_setControl, hv]
    exact .mark _ _ trivial rfl
  | notified started i hi hctl => exact ⟨hs.setControl (by simp), .quiet _ trivial⟩
  | join started c hctl hl =>
    refine ⟨(hs.setProcessor c _ (by rfl)).setControl (by simp), ?_⟩
    rw [view_setControl, view_goto_same (by rw [hl]; rfl)]
    exact .quiet _ trivial
  | halted started i hi hctl => exact ⟨(hs.setControl (by simp)).emit _, .mark _ .halted trivial rfl⟩

/-! ## Runs of one Disruptor -/

/-- Everything is attached to the `Sequencer` of the initial state; its cursor. -/
def Sys.cursor (s : Sys R m n) : Int := (s.sequencers 0).cursor

/-- A condition on the steps of a run, stated on the protocol's view of the state. -/
abbrev RunMeets (R : RingSize) (m n : Nat) (G : View R m n → Act m n → Prop) (acts : List (Act m n)) : Prop :=
  Runs.Meets Sys.step (fun s a => G s.view a) (Sys.init R m n) acts

theorem meets_no_construct {acts : List (Act m n)} (hc : .construct ∉ acts) (s : Sys R m n) :
    Runs.Meets Sys.step (fun _ a => a ≠ .construct) s acts :=
  Runs.meets_of_forall fun _ ha h => hc (h ▸ ha)

theorem Attached.cursorOf {s : Sys R m n} (hs : Attached s) (c : Fin n) : s.cursorOf c = s.view.cursor := by
  rw [Sys.cursorOf, hs.processors c]; rfl

/-- Invariant rule of the protocol, for runs whose steps meet `G`. -/
theorem view_inv_of_meets {G : View R m n → Act m n → Prop} {I : View R m n → Prop}
    (hstep : ∀ v a v', I v → G v a → View.Step v a v' → I v') (h0 : I (Sys.init R m n).view)
    {acts : List (Act m n)} {s : Sys R m n} (hc : .construct ∉ acts) (hm : RunMeets R m n G acts)
    (h : Sys.exec R m n acts = some s) : Attached s ∧ Threads s ∧ I s.view := by
  refine Runs.run_inv (I := fun s => Attached s ∧ Threads s ∧ I s.view)
    (G := fun s a => a ≠ .construct ∧ G s.view a) ?_ ⟨attached_init, threads_init, h0⟩
    (Runs.meets_and (meets_no_construct hc _) hm) h
  rintro s a s' ⟨hs, ht, hi⟩ ⟨ha, hg⟩ hst
  obtain ⟨hs', hv⟩ := step_view hs ht ha hst
  exact ⟨hs', threads_step ht hst, hstep _ _ _ hi hg hv⟩

/-- Invariant rule of the protocol, for all runs. -/
theorem view_inv {I : View R m n → Prop} (hstep : ∀ v a v', I v → View.Step v a v' → I v')
    (h0 : I (Sys.init R m n).view) {acts : List (Act m n)} {s : Sys R m n} (hc : .construct ∉ acts)
    (h : Sys.exec R m n acts = some s) : Attached s ∧ Threads s ∧ I s.view :=
  view_inv_of_meets (G := fun _ _ => True) (fun v a v' hi _ => hstep v a v' hi) h0 hc Runs.meets_true h

theorem attached_of_exec {acts : List (Act m n)} {s : Sys R m n} (hc : .construct ∉ acts)
    (h : Sys.exec R m n acts = some s) : Attached s ∧ Threads s :=
  have hi := view_inv (I := fun _ => True) (fun _ _ _ _ _ => trivial) trivial hc h
  ⟨hi.1, hi.2.1⟩

/-- Exact condition of a run of the protocol: what one step keeps exactly when it meets `G`. -/
theorem view_exact {G : View R m n → Act m n → Prop} {I P : View R m n → Prop}
    (hinv : ∀ v a v', I v → View.Step v a v' → I v')
    (hstep : ∀ v a v', I v → View.Step v a v' → (P v' ↔ P v ∧ G v a))
    (h0 : I (Sys.init R m n).view) (hp : P (Sys.init R m n).view)
    {acts : List (Act m n)} {s : Sys R m n} (hc : .construct ∉ acts) (h : Sys.exec R m n acts = some s) :
    P s.view ↔ RunMeets R m n G acts := by
  have hx := Runs.run_exact (A := fun _ a => a ≠ .construct) (G := fun s a => G s.view a)
    (I := fun s => Attached s ∧ Threads s ∧ I s.view) (P := fun s => P s.view) ?_ ?_
    ⟨attached_init, threads_init, h0⟩ (meets_no_construct hc _) h
  · rw [hx]
    exact and_iff_right hp
  · rintro s a s' ⟨hs, ht, hi⟩ ha hst
    obtain ⟨hs', hv⟩ := step_view hs ht ha hst
    exact ⟨hs', threads_step ht hst, hinv _ _ _ hi hv⟩
  · rintro s a s' ⟨hs, ht, hi⟩ ha hst
    exact hstep _ _ _ hi (step_view hs ht ha hst).2

end LowLatency.Disruptor
