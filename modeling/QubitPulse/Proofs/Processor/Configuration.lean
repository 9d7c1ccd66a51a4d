import QubitPulse.Processor.Basic
import QubitPulse.Proofs.Double.Addition
import QubitPulse.Proofs.Parameter
import QubitPulse.Proofs.Processor.History
import QubitPulse.Proofs.SpinChain.Reconfiguration

/-!
# Which configurations a processor accepts

A configuration is checked in three places: its own numbers, its relaxation times once they are lists, and
its size against the device. Together they accept what is consistent, and report what is wrong first in one
order. Before the times are checked their lists have to find room.
-/
namespace QubitPulse

namespace Decoherence

/-- A time is refused if it is not above zero, and so if it is no number. -/
theorem isBadTime_eq (t : Float) : isBadTime t = !Scalar.lt Scalar.zero t := by
  have hnan : Scalar.isNaN t = t.toModel.unpack.isNaN := rfl
  have hzero : (Scalar.zero : Float).toModel.unpack = .zero .positive := rfl
  rw [isBadTime, hnan, Double.le_eq, Double.lt_eq, hzero]
  rcases t.toModel.unpack with ⟨_ | _⟩ | _ | s | ⟨_ | _, m, e, hm⟩ <;> rfl

/-- A number of times that is not the number of qubits. -/
def countFault? (label : String) (numQubits : ℕ) (ts : List Float) : Option (Error Float) :=
  if ts.length = numQubits then none
  else some (.invalidDecoherence (.wrongCount label ts.length numQubits))

/-- The first time that is not above zero. -/
def timeFault? (label : String) (ts : List Float) : Option (Error Float) :=
  (ts.zipIdx.find? fun (t, _) => !Scalar.lt Scalar.zero t).map fun (t, q) =>
    .invalidDecoherence (.notPositive label q t)

/-- The first qubit with a coherence time above twice its relaxation time. -/
def boundFault? (t1 t2 : List Float) : Option (Error Float) :=
  ((t1.zip t2).zipIdx.find? fun ((x, y), _) => Scalar.lt (Scalar.two * x) y).map fun ((x, y), q) =>
    .invalidT2 q y x

theorem error?_checkTimes (numQubits : ℕ) (label : String) (ts : Option (List Float)) :
    Result.error? (checkTimes numQubits label ts) =
      (ts.bind (countFault? label numQubits)).or (ts.bind (timeFault? label)) := by
  cases ts with
  | none => rfl
  | some ts =>
    simp only [checkTimes, isBadTime_eq, Option.bind_some, countFault?, timeFault?, ne_eq, ite_not]
    by_cases hcount : ts.length = numQubits
    · rw [if_pos hcount, if_pos hcount, Option.none_or]
      cases ts.zipIdx.find? (fun p => !Scalar.lt Scalar.zero p.1) <;> rfl
    · rw [if_neg hcount, if_neg hcount]
      rfl

theorem error?_checkBound (t1 t2 : List Float) : Result.error? (checkBound t1 t2) = boundFault? t1 t2 := by
  unfold checkBound boundFault?
  cases (t1.zip t2).zipIdx.find? (fun p => Scalar.lt (Scalar.two * p.1.1) p.1.2) <;> rfl

/-- Noise is refused for the first of its faults: the times of one kind before those of the other, and the
bound between the two at last. -/
theorem error?_validate (d : Decoherence Float) :
    Result.error? d.validate =
      (d.t1.bind (countFault? "t1" d.numQubits)).or ((d.t1.bind (timeFault? "t1")).or
        ((d.t2.bind (countFault? "t2" d.numQubits)).or ((d.t2.bind (timeFault? "t2")).or
          (d.t1.bind fun t1 => d.t2.bind (boundFault? t1))))) := by
  obtain ⟨n, t1, t2⟩ := d
  unfold validate
  rw [Result.error?_check, Result.error?_check, error?_checkTimes, error?_checkTimes]
  simp only [Option.or_assoc]
  -- only times of both kinds can break the bound
  rcases t1 with _ | t1 <;> rcases t2 with _ | t2
  case some.some =>
    dsimp only [Option.bind_some]
    rw [error?_checkBound]
  all_goals rfl

/-- Times that are accepted for a register: one for every qubit, all above zero. -/
structure Times (numQubits : ℕ) (ts : List Float) : Prop where
  count : ts.length = numQubits
  positive : ∀ t ∈ ts, Scalar.lt Scalar.zero t = true

theorem times_iff {label : String} {numQubits : ℕ} {ts : List Float} :
    countFault? label numQubits ts = none ∧ timeFault? label ts = none ↔ Times numQubits ts := by
  have hcount : countFault? label numQubits ts = none ↔ ts.length = numQubits := by simp [countFault?]
  have htime : timeFault? label ts = none ↔ ∀ t ∈ ts, Scalar.lt Scalar.zero t = true := by
    simp only [timeFault?, Option.map_eq_none_iff, List.find?_eq_none, Bool.not_eq_true', Bool.not_eq_false]
    constructor
    · intro h t ht
      obtain ⟨q, hq⟩ := List.getElem?_of_mem ht
      exact h (t, q) (List.mk_mem_zipIdx_iff_getElem?.mpr hq)
    · exact fun h p hp => h p.1 (List.fst_mem_of_mem_zipIdx hp)
  rw [hcount, htime]
  exact ⟨fun ⟨h, h'⟩ => ⟨h, h'⟩, fun h => ⟨h.count, h.positive⟩⟩

theorem boundFault?_eq_none {t1 t2 : List Float} :
    boundFault? t1 t2 = none ↔ ∀ (q : ℕ) (x y : Float), t1[q]? = some x → t2[q]? = some y →
      Scalar.lt (Scalar.two * x) y = false := by
  simp only [boundFault?, Option.map_eq_none_iff, List.find?_eq_none, Bool.not_eq_true]
  constructor
  · intro h q x y hx hy
    exact h ((x, y), q) (List.mk_mem_zipIdx_iff_getElem?.mpr (List.getElem?_zip_eq_some.mpr ⟨hx, hy⟩))
  · rintro h ⟨⟨x, y⟩, q⟩ hmem
    obtain ⟨hx, hy⟩ := List.getElem?_zip_eq_some.mp (List.mk_mem_zipIdx_iff_getElem?.mp hmem)
    exact h q x y hx hy

end Decoherence

theorem ParamValue.mapM_expand {α : Type} (v : Option (ParamValue α)) (n : ℕ) :
    v.mapM (·.expand n) =
      (if v.all (·.hasRoom n) then .ok (v.map (·.broadcast n)) else .error .tooLarge :
        Result α (Option (List α))) := by
  cases v with
  | none => rfl
  | some v =>
    change (v.expand n).map some = _
    rw [expand_eq, Option.all_some]
    cases v.hasRoom n <;> rfl

namespace Config

/-- The relaxation times of all qubits, each given for itself or once for all. -/
def noise (c : Config Float) : Decoherence Float :=
  ⟨c.numQubits, c.t1.map (·.broadcast c.numQubits), c.t2.map (·.broadcast c.numQubits)⟩

/-- The relaxation times of all qubits can be addressed. -/
def hasRoom (c : Config Float) : Bool :=
  c.t1.all (·.hasRoom c.numQubits) && c.t2.all (·.hasRoom c.numQubits)

theorem decoherence_eq (c : Config Float) :
    c.decoherence =
      if c.hasRoom then c.noise.validate.map fun _ => c.noise else .error .tooLarge := by
  unfold decoherence Decoherence.ofParams hasRoom
  rw [ParamValue.mapM_expand, ParamValue.mapM_expand]
  cases c.t1.all (·.hasRoom c.numQubits)
  · rfl
  · cases c.t2.all (·.hasRoom c.numQubits) <;> rfl

/-- A register of another size than the device. -/
def sizeFault? (device : String) (n : ℕ) (c : Config Float) : Option (Error Float) :=
  if c.numQubits = n then none else some (.invalidConfig (.deviceSize c.numQubits device n))

/-- What can be wrong with a configuration for a device, in the order in which it is reported. -/
def faults (device : String) (n : ℕ) (c : Config Float) : List (Option (Error Float)) :=
  [if c.numQubits = 0 then some (.invalidConfig .noQubits) else none,
    if Scalar.isPositive c.rasterStep then none else some (.invalidConfig (.rasterStep c.rasterStep)),
    if c.hasRoom then none else some .tooLarge,
    c.noise.t1.bind (Decoherence.countFault? "t1" c.numQubits),
    c.noise.t1.bind (Decoherence.timeFault? "t1"),
    c.noise.t2.bind (Decoherence.countFault? "t2" c.numQubits),
    c.noise.t2.bind (Decoherence.timeFault? "t2"),
    c.noise.t1.bind fun t1 => c.noise.t2.bind (Decoherence.boundFault? t1),
    c.sizeFault? device n]

/-- A configuration that a device of a number of qubits can be run with. -/
structure Consistent (n : ℕ) (c : Config Float) : Prop where
  nonempty : 1 ≤ c.numQubits
  size : c.numQubits = n
  rasterStep : Scalar.isPositive c.rasterStep = true
  t1 : ∀ v ∈ c.t1, Decoherence.Times c.numQubits (v.broadcast c.numQubits)
  t2 : ∀ v ∈ c.t2, Decoherence.Times c.numQubits (v.broadcast c.numQubits)
  bound : ∀ v ∈ c.t1, ∀ w ∈ c.t2, ∀ (q : ℕ) (x y : Float), (v.broadcast c.numQubits)[q]? = some x →
    (w.broadcast c.numQubits)[q]? = some y → Scalar.lt (Scalar.two * x) y = false

theorem isPositive_defaultRasterStep : Scalar.isPositive (defaultRasterStep : Float) = true := rfl

theorem hasRoom_of_size {n : ℕ} {c : Config Float} (hn : 8 * n ≤ Word.mostBytes) (h : c.numQubits = n) :
    c.hasRoom = true := by
  have hvalue : ∀ v : ParamValue Float, v.hasRoom c.numQubits = true := by
    rintro (x | xs)
    · exact decide_eq_true (h ▸ hn)
    · rfl
  unfold hasRoom
  cases c.t1 <;> cases c.t2 <;> simp [hvalue]

theorem times_noise_iff (label : String) {numQubits : ℕ} {t : Option (ParamValue Float)} :
    (t.map (·.broadcast numQubits)).bind (Decoherence.countFault? label numQubits) = none ∧
        (t.map (·.broadcast numQubits)).bind (Decoherence.timeFault? label) = none ↔
      ∀ v ∈ t, Decoherence.Times numQubits (v.broadcast numQubits) := by
  cases t with
  | none => simp
  | some v => simpa using Decoherence.times_iff

theorem bound_noise_iff {c : Config Float} :
    (c.noise.t1.bind fun t1 => c.noise.t2.bind (Decoherence.boundFault? t1)) = none ↔
      ∀ v ∈ c.t1, ∀ w ∈ c.t2, ∀ (q : ℕ) (x y : Float), (v.broadcast c.numQubits)[q]? = some x →
        (w.broadcast c.numQubits)[q]? = some y → Scalar.lt (Scalar.two * x) y = false := by
  unfold noise
  rcases c.t1 with _ | v <;> rcases c.t2 with _ | w
  case some.some => simpa using Decoherence.boundFault?_eq_none
  all_goals simp

/-- A configuration has no fault exactly if it is consistent with the device. Of the device it is supposed
that one value for each of its qubits can be addressed. -/
theorem faults_eq_none_iff {device : String} {n : ℕ} {c : Config Float} (hn : 8 * n ≤ Word.mostBytes) :
    (c.faults device n).findSome? id = none ↔ c.Consistent n := by
  rw [List.findSome?_eq_none_iff]
  simp only [faults, List.forall_mem_cons, id_eq, List.not_mem_nil, false_imp_iff, implies_true, and_true,
    bound_noise_iff, sizeFault?]
  constructor
  · rintro ⟨hzero, hstep, -, hcount, htime, hcount', htime', hbound, hsize⟩
    refine ⟨?_, by simpa using hsize, by simpa using hstep, (times_noise_iff "t1").mp ⟨hcount, htime⟩,
      (times_noise_iff "t2").mp ⟨hcount', htime'⟩, hbound⟩
    exact Nat.one_le_iff_ne_zero.mpr (by simpa using hzero)
  · intro h
    obtain ⟨hcount, htime⟩ := (times_noise_iff "t1").mpr h.t1
    obtain ⟨hcount', htime'⟩ := (times_noise_iff "t2").mpr h.t2
    have hzero : c.numQubits ≠ 0 := Nat.one_le_iff_ne_zero.mp h.nonempty
    exact ⟨if_neg hzero, if_pos h.rasterStep, if_pos (hasRoom_of_size hn h.size), hcount, htime, hcount',
      htime', h.bound, if_pos h.size⟩

theorem error?_decoherence (c : Config Float) :
    Result.error? c.decoherence =
      (if c.hasRoom then none else some .tooLarge).or (Result.error? c.noise.validate) := by
  rw [decoherence_eq]
  split_ifs
  · rw [Result.error?_map, Option.none_or]
  · rfl

theorem error?_validate (c : Config Float) :
    Result.error? c.validate =
      (if c.numQubits = 0 then some (.invalidConfig .noQubits) else none).or
        ((if Scalar.isPositive c.rasterStep then none
          else some (.invalidConfig (.rasterStep c.rasterStep))).or (Result.error? c.decoherence)) := by
  unfold validate
  by_cases hzero : c.numQubits = 0
  · rw [if_pos hzero, if_pos hzero]
    rfl
  · rw [if_neg hzero, if_neg hzero, Option.none_or]
    cases Scalar.isPositive c.rasterStep
    · rfl
    · exact Result.error?_map ..

end Config

namespace Processor

variable {δ ρ : Type} [Device δ Float ρ]

/-- A configuration is refused for the first of its faults. -/
theorem error?_new (device : δ) (c : Config Float) :
    Result.error? (new device c) =
      (c.faults (Device.name device) (Device.numQubits device)).findSome? id := by
  have hsize : Result.error? (do
        if c.numQubits ≠ Device.numQubits device then
          .error (.invalidConfig (.deviceSize c.numQubits (Device.name device) (Device.numQubits device)))
        else
          let d ← c.decoherence
          return (⟨device, c, d, none, Scalar.zero⟩ : Processor δ Float)) =
      (c.sizeFault? (Device.name device) (Device.numQubits device)).or (Result.error? c.decoherence) := by
    unfold Config.sizeFault?
    by_cases hsize : c.numQubits = Device.numQubits device
    · rw [if_neg (not_not.mpr hsize), if_pos hsize]
      cases c.decoherence <;> rfl
    · rw [if_pos hsize, if_neg hsize]
      rfl
  -- the times that are read after the size is checked were checked before it
  have hagain : ∀ x y : Option (Error Float), x.or (y.or x) = x.or y := by
    rintro (_ | x) (_ | y) <;> rfl
  unfold new
  rw [Result.error?_check, hsize, Config.error?_validate, Option.or_assoc, Option.or_assoc, hagain,
    Config.error?_decoherence, Decoherence.error?_validate]
  simp only [Config.faults, Result.findSome?_cons, List.findSome?_nil, Option.or_none, Option.or_assoc]
  rfl

theorem new_eq_of_ok {device : δ} {c : Config Float} {p : Processor δ Float} (h : new device c = .ok p) :
    p = ⟨device, c, c.noise, none, Scalar.zero⟩ := by
  obtain ⟨hconfig, hnoise, hnone, hzero, hdevice⟩ := new_eq_ok h
  rw [Config.decoherence_eq] at hnoise
  split_ifs at hnoise
  obtain ⟨_, -, hnoise⟩ := Result.map_eq_ok.mp hnoise
  obtain ⟨device', config', noise', timeline', phase'⟩ := p
  dsimp only at hconfig hnoise hnone hzero hdevice
  rw [hconfig, ← hnoise, hnone, hzero, hdevice]

/-- A chain, however it was given other strengths, is made into a processor exactly with the configurations
that are consistent with it. Any other is refused for the first of its faults. A processor starts with the
relaxation times of all qubits and without pulses. -/
theorem new_succeeds_iff_consistent {n : ℕ} {layout : ChainLayout} {given : ChainStrengths Float}
    {chain : SpinChain Float} (hbuild : SpinChain.build n layout given = .ok chain)
    (calls : List (ChainStrengths Float)) (c : Config Float) :
    let device := chain.reconfigured calls
    ((∃ p, new device c = .ok p) ↔ c.Consistent n) ∧
      (∀ e, new device c = .error e ↔ (c.faults device.name n).findSome? id = some e) ∧
      ∀ p, new device c = .ok p → p = ⟨device, c, c.noise, none, Scalar.zero⟩ := by
  intro device
  have hdevice := SpinChain.build_lastAccepted hbuild calls
  have hsize : Device.numQubits device = n := (SpinChain.consistent_of_build hdevice).size_eq
  have hroom : 8 * n ≤ Word.mostBytes := by
    obtain ⟨-, hmost, -⟩ := SpinChain.build_eq_ok.mp hdevice
    replace hmost : n ≤ 8 := hmost
    simp [Word.mostBytes]
    omega
  have hnew := error?_new device c
  rw [hsize] at hnew
  refine ⟨?_, fun e => ?_, fun p => new_eq_of_ok⟩
  · rw [← Result.error?_eq_none, hnew, Config.faults_eq_none_iff hroom]
  · rw [← Result.error?_eq_some, hnew]
    rfl

/-- An infinite time is a time, and one that is no number is refused before a list that is too short. -/
theorem new_succeeds_iff_consistent_on_chain_of_two :
    let c : Config Float := { Config.new 2 with
      t1 := some (.perQubit [1.0 / 0.0, 50.0]), t2 := some (.scalar 100.0) }
    let d : Config Float := { c with
      t1 := some (.perQubit [1.0, 0.0 / 0.0]), t2 := some (.perQubit [-1.0]) }
    ∃ chain : SpinChain Float, SpinChain.build 2 .circular .default = .ok chain ∧ c.Consistent 2 ∧
      (∃ p, new chain c = .ok p ∧ p.decoherence = ⟨2, some [1.0 / 0.0, 50.0], some [100.0, 100.0]⟩) ∧
      new chain d = .error (.invalidDecoherence (.notPositive "t1" 1 (0.0 / 0.0))) := by
  intro c d
  obtain ⟨chain, hchain, hname⟩ : ∃ chain : SpinChain Float,
      SpinChain.build 2 .circular .default = .ok chain ∧ chain.name = "circular_spin_chain" :=
    ⟨_, rfl, rfl⟩
  have hfaults : (c.faults "circular_spin_chain" 2).findSome? id = none ∧
      (d.faults "circular_spin_chain" 2).findSome? id =
        some (.invalidDecoherence (.notPositive "t1" 1 (0.0 / 0.0))) := by
    decide +kernel
  have hconsistent : c.Consistent 2 := (Config.faults_eq_none_iff (by decide)).mp hfaults.1
  obtain ⟨haccepts, -, hmade⟩ := new_succeeds_iff_consistent hchain [] c
  obtain ⟨-, hrefuses, -⟩ := new_succeeds_iff_consistent hchain [] d
  obtain ⟨p, hp⟩ := haccepts.mpr hconsistent
  refine ⟨chain, hchain, hconsistent, ⟨p, hp, ?_⟩, (hrefuses _).mpr ?_⟩
  · rw [hmade p hp]
    rfl
  · rw [show (chain.reconfigured []).name = "circular_spin_chain" from hname]
    exact hfaults.2

/-- A configuration whose only fault, but for the room that one time takes for every qubit, is its size. The
room is asked for first. -/
theorem register_without_room :
    let c : Config Float := { Config.new (2 ^ 60) with t1 := some (.scalar 50.0) }
    ∃ chain : SpinChain Float, SpinChain.build 1 .linear .default = .ok chain ∧
      1 ≤ c.numQubits ∧ Scalar.isPositive c.rasterStep = true ∧
      (∀ v ∈ c.t1, Decoherence.Times c.numQubits (v.broadcast c.numQubits)) ∧ c.t2 = none ∧
      c.numQubits ≠ Device.numQubits chain ∧ new chain c = .error .tooLarge := by
  intro c
  obtain ⟨chain, hchain, hsize⟩ : ∃ chain : SpinChain Float,
      SpinChain.build 1 .linear .default = .ok chain ∧ Device.numQubits chain = 1 :=
    ⟨_, rfl, rfl⟩
  have hstep : Scalar.isPositive c.rasterStep = true := Config.isPositive_defaultRasterStep
  have hroom : c.hasRoom = false := rfl
  have htime : Scalar.lt Scalar.zero (50.0 : Float) = true := rfl
  have hnew : new chain c = .error .tooLarge := by
    rw [← Result.error?_eq_some, error?_new, Config.faults, Result.findSome?_cons, Result.findSome?_cons,
      if_neg (show c.numQubits ≠ 0 by decide), if_pos hstep, hroom]
    rfl
  refine ⟨chain, hchain, by decide, hstep, fun v hv => ?_, rfl, hsize ▸ by decide, hnew⟩
  obtain rfl : ParamValue.scalar 50.0 = v := Option.some.inj hv
  exact ⟨List.length_replicate, fun t ht => List.eq_of_mem_replicate ht ▸ htime⟩

end Processor
end QubitPulse
