import Nachos.Framework.Rotation
import Nachos.Framework.System
import Nachos.Impl.Machine.DiskHead
import Nachos.Proof.Machine.Disk

/-!
# The latency of the disk

The track is a wheel of `SectorsPerTrack` places, and a slot takes `RotationTime`
ticks; the head arrives over the new track at the start of a slot (`arrival`). The
code computes with remainders what `Framework.Rotation` says of slots
(`timeToSeek_eq`, `moduloDiff_eq`), so the track buffer applies when the sector has
passed since it was started (`buffered_iff`), and otherwise the request ends when
the sector has passed next (`passed`).
-/

namespace Nachos.DiskHead

open Framework Framework.Rotation

/-- The previous request was for a sector of the disk, and the track buffer was
started at the start of a slot. -/
structure Wf (d : DiskHead) : Prop where
  lastSector : 0 ≤ d.lastSector ∧ d.lastSector < numSectors
  bufferInit : 0 ≤ d.bufferInit ∧ d.bufferInit < 2 ^ 31
  aligned : rotationTime ∣ d.bufferInit

/-- How long the seek takes. -/
def seek (d : DiskHead) (newSector : Int) : Int :=
  (newSector / sectorsPerTrack - d.lastSector / sectorsPerTrack).natAbs * seekTime

/-- When the head is over the new track, at the start of a slot. -/
def arrival (d : DiskHead) (totalTicks newSector : Int) : Int :=
  totalTicks + d.seek newSector + ahead rotationTime 0 (totalTicks + d.seek newSector)

variable {d d' : DiskHead} {totalTicks newSector : Int}

theorem wf_new : new.Wf := ⟨by decide, by decide, by decide⟩

theorem seek_nonneg : 0 ≤ d.seek newSector := Int.mul_nonneg (Int.natCast_nonneg _) (by decide)

/-- There are 32 tracks. -/
theorem seek_le (h : d.Wf) (hnew : 0 ≤ newSector ∧ newSector < numSectors) :
    d.seek newSector ≤ 31 * seekTime := by
  have hlast := h.lastSector
  unfold seek seekTime sectorsPerTrack
  unfold numSectors at *
  omega

/-- The head does not seek on its track. -/
theorem seek_eq_zero : d.seek newSector = 0 ↔
    newSector / sectorsPerTrack = d.lastSector / sectorsPerTrack := by
  unfold seek seekTime
  omega

theorem arrival_aligned (d : DiskHead) (totalTicks newSector : Int) :
    rotationTime ∣ d.arrival totalTicks newSector := dvd_add_ahead

theorem arrival_bounds (d : DiskHead) (totalTicks newSector : Int) :
    totalTicks + d.seek newSector ≤ d.arrival totalTicks newSector ∧
    d.arrival totalTicks newSector < totalTicks + d.seek newSector + rotationTime := by
  have h0 : 0 ≤ ahead rotationTime 0 (totalTicks + d.seek newSector) := ahead_nonneg (by decide)
  have hlt : ahead rotationTime 0 (totalTicks + d.seek newSector) < rotationTime :=
    ahead_lt (by decide)
  unfold arrival
  omega

/-! ## The computations -/

theorem timeToSeek_eq (h : d.Wf) (hnew : 0 ≤ newSector ∧ newSector < numSectors)
    (ht : 0 ≤ totalTicks) (hsum : d.arrival totalTicks newSector < 2 ^ 31) :
    d.timeToSeek totalTicks newSector =
      .ok (d.seek newSector, ahead rotationTime 0 (totalTicks + d.seek newSector)) := by
  have hle := seek_le h hnew
  have h0 : 0 ≤ d.seek newSector := seek_nonneg
  have harr := arrival_bounds d totalTicks newSector
  have hseek : d.seek newSector = (newSector.tdiv sectorsPerTrack -
      d.lastSector.tdiv sectorsPerTrack).natAbs * seekTime := by
    rw [Int.tdiv_eq_ediv_of_nonneg hnew.1, Int.tdiv_eq_ediv_of_nonneg h.lastSector.1, seek]
  unfold timeToSeek
  simp only
  rw [← hseek, i32_of ⟨by omega, by unfold seekTime at hle; omega⟩, ok_bind,
    i32_of ⟨by omega, by omega⟩, ok_bind, Int.tmod_eq_emod_of_nonneg (by omega),
    ahead_zero (by decide)]
  rfl

theorem moduloDiff_eq {toSector fromSector : Int} (hto : 0 ≤ toSector) (hfrom : 0 ≤ fromSector) :
    moduloDiff toSector fromSector = ahead sectorsPerTrack toSector fromSector := by
  have ht : 0 ≤ toSector % sectorsPerTrack := Int.emod_nonneg _ (by decide)
  have hf : fromSector % sectorsPerTrack < sectorsPerTrack := Int.emod_lt_of_pos _ (by decide)
  unfold moduloDiff
  simp only
  rw [Int.tmod_eq_emod_of_nonneg hto, Int.tmod_eq_emod_of_nonneg hfrom,
    Int.tmod_eq_emod_of_nonneg (by omega), ahead_eq_of_emod]

/-! ## The latency -/

/-- A whole slot of the sector has passed since the track buffer was started, when the
head is at the start of a slot. -/
def Passed (d : DiskHead) (totalTicks newSector : Int) : Prop :=
  ∃ k, d.bufferInit ≤ k * rotationTime ∧ (k + 1) * rotationTime ≤ d.arrival totalTicks newSector ∧
    k ≡ newSector [ZMOD sectorsPerTrack]

/-- The slots since the track buffer was started, as the code counts them. -/
theorem passed_iff (h : d.Wf) (hnew : 0 ≤ newSector) :
    d.Passed totalTicks newSector ↔
      (d.arrival totalTicks newSector - d.bufferInit).tdiv rotationTime >
        moduloDiff newSector (d.bufferInit.tdiv rotationTime) := by
  obtain ⟨b, hb⟩ := h.aligned
  obtain ⟨t, ht⟩ := arrival_aligned d totalTicks newSector
  have hR : rotationTime ≠ 0 := by decide
  have h0 : 0 ≤ b := by
    have hinit := h.bufferInit.1
    unfold rotationTime at hb
    omega
  rw [Passed, ht, hb, ← Int.mul_sub, Int.mul_tdiv_cancel_left _ hR, Int.mul_tdiv_cancel_left _ hR,
    moduloDiff_eq hnew h0, gt_iff_lt, lt_sub_iff_add_lt', ← exists_slot_iff (by decide)]
  refine exists_congr fun k => ?_
  unfold rotationTime
  constructor
  · rintro ⟨hbk, hkt, hk⟩
    exact ⟨by omega, by omega, hk⟩
  · rintro ⟨hbk, hkt, hk⟩
    exact ⟨by omega, by omega, hk⟩

theorem buffered_iff (h : d.Wf) (hnew : 0 ≤ newSector) (ht : 0 ≤ totalTicks)
    (hsum : d.arrival totalTicks newSector < 2 ^ 31) (writing : Bool) :
    ∃ b, d.buffered newSector writing (d.seek newSector) (d.arrival totalTicks newSector) = .ok b ∧
      (b = true ↔ writing = false ∧ newSector / sectorsPerTrack = d.lastSector / sectorsPerTrack ∧
        d.Passed totalTicks newSector) := by
  have hinit := h.bufferInit
  have hseek : 0 ≤ d.seek newSector := seek_nonneg
  have harr := arrival_bounds d totalTicks newSector
  unfold buffered
  by_cases hc : writing = false ∧ d.seek newSector = 0
  · rw [if_pos hc, i32_of ⟨by omega, by omega⟩, ok_bind]
    refine ⟨_, rfl, ?_⟩
    rw [decide_eq_true_eq, ← passed_iff h hnew]
    exact ⟨fun hp => ⟨hc.1, seek_eq_zero.mp hc.2, hp⟩, fun hp => hp.2.2⟩
  · rw [if_neg hc]
    refine ⟨false, rfl, iff_of_false (by decide) fun hp => hc ⟨hp.1, seek_eq_zero.mpr hp.2.1⟩⟩

/-- The slots that pass before that of the sector, when the head is at the start of
one. -/
def wait (d : DiskHead) (totalTicks newSector : Int) : Int :=
  ahead sectorsPerTrack newSector (d.arrival totalTicks newSector / rotationTime)

theorem wait_bounds (d : DiskHead) (totalTicks newSector : Int) :
    0 ≤ d.wait totalTicks newSector ∧ d.wait totalTicks newSector < sectorsPerTrack :=
  ⟨ahead_nonneg (by decide), ahead_lt (by decide)⟩

/-- How long a request takes, from the track buffer or from the disk. -/
def latency (d : DiskHead) (totalTicks newSector : Int) (fromBuffer : Bool) : Int :=
  if fromBuffer then rotationTime
  else d.arrival totalTicks newSector + (d.wait totalTicks newSector + 1) * rotationTime - totalTicks

theorem latency_pos (d : DiskHead) (totalTicks newSector : Int) (fromBuffer : Bool) :
    0 < d.latency totalTicks newSector fromBuffer := by
  have hseek : 0 ≤ d.seek newSector := seek_nonneg
  have harr := arrival_bounds d totalTicks newSector
  have hwait := wait_bounds d totalTicks newSector
  unfold latency
  unfold rotationTime at *
  split <;> omega

/-- Otherwise the request ends behind the next slot of the sector. -/
theorem passed_behind : (d.arrival totalTicks newSector + (d.wait totalTicks newSector + 1) * rotationTime) /
    rotationTime ≡ newSector + 1 [ZMOD sectorsPerTrack] := by
  have hslot : d.arrival totalTicks newSector / rotationTime + d.wait totalTicks newSector ≡
      newSector [ZMOD sectorsPerTrack] := add_ahead_modEq
  rw [Int.add_mul_ediv_right _ _ (by decide), ← add_assoc]
  exact hslot.add_right 1

theorem computeLatency_eq (h : d.Wf) (hnew : 0 ≤ newSector ∧ newSector < numSectors)
    (ht : 0 ≤ totalTicks) (hsum : d.arrival totalTicks newSector < 2 ^ 31) {writing b : Bool}
    (hb : d.buffered newSector writing (d.seek newSector) (d.arrival totalTicks newSector) = .ok b) :
    d.computeLatency totalTicks newSector writing = .ok (d.latency totalTicks newSector b) := by
  have hle := seek_le h hnew
  have hseek : 0 ≤ d.seek newSector := seek_nonneg
  have harr := arrival_bounds d totalTicks newSector
  have hwait := wait_bounds d totalTicks newSector
  have hahead : totalTicks + d.seek newSector +
      ahead rotationTime 0 (totalTicks + d.seek newSector) = d.arrival totalTicks newSector := rfl
  unfold computeLatency
  simp only [timeToSeek_eq h hnew ht hsum, ok_bind]
  rw [hahead, i32_of ⟨by omega, hsum⟩, ok_bind, hb, ok_bind]
  cases b with
  | true => rfl
  | false =>
    have hpos : 0 ≤ d.arrival totalTicks newSector / rotationTime :=
      Int.ediv_nonneg (by omega) (by decide)
    have hdiff : moduloDiff newSector ((d.arrival totalTicks newSector).tdiv rotationTime) =
        d.wait totalTicks newSector := by
      rw [Int.tdiv_eq_ediv_of_nonneg (by omega), moduloDiff_eq hnew.1 hpos, wait]
    simp only [Bool.false_eq_true, if_false, hdiff]
    unfold sectorsPerTrack at hwait
    unfold seekTime at hle
    unfold rotationTime at *
    rw [i32_of ⟨by omega, by omega⟩, ok_bind, i32_of ⟨by omega, by omega⟩, latency,
      if_neg (by decide), rotationTime]
    congr 1
    omega

theorem updateLast_eq (h : d.Wf) (hnew : 0 ≤ newSector ∧ newSector < numSectors)
    (ht : 0 ≤ totalTicks) (hsum : d.arrival totalTicks newSector < 2 ^ 31) :
    d.updateLast totalTicks newSector = .ok ⟨newSector,
      if d.seek newSector ≠ 0 then d.arrival totalTicks newSector else d.bufferInit⟩ := by
  have hseek : 0 ≤ d.seek newSector := seek_nonneg
  have harr := arrival_bounds d totalTicks newSector
  have hahead : totalTicks + d.seek newSector +
      ahead rotationTime 0 (totalTicks + d.seek newSector) = d.arrival totalTicks newSector := rfl
  unfold updateLast
  simp only [timeToSeek_eq h hnew ht hsum, ok_bind]
  split
  · rw [hahead, i32_of ⟨by omega, hsum⟩, ok_bind, pure_eq_ok]
  · rfl

/-- `UpdateLast` starts the track buffer at the start of a slot. -/
theorem Wf.updateLast (h : d.Wf) (hnew : 0 ≤ newSector ∧ newSector < numSectors)
    (ht : 0 ≤ totalTicks) (hsum : d.arrival totalTicks newSector < 2 ^ 31) :
    ∃ d', d.updateLast totalTicks newSector = .ok d' ∧ d'.Wf := by
  have hseek : 0 ≤ d.seek newSector := seek_nonneg
  have harr := arrival_bounds d totalTicks newSector
  refine ⟨_, updateLast_eq h hnew ht hsum, hnew, ?_, ?_⟩
  · dsimp only
    split
    · exact ⟨by omega, hsum⟩
    · exact h.bufferInit
  · dsimp only
    split
    · exact arrival_aligned d totalTicks newSector
    · exact h.aligned

/-- The latency is positive. The track buffer is used for a read on the current track,
and just when a whole slot of the sector has passed since it was started. Otherwise the
request ends when the sector has just passed, after the seek, a turn and a slot at most.
The track buffer is started at the start of a slot, at first and by `UpdateLast`. -/
theorem computeLatency_passed (h : d.Wf) (hnew : 0 ≤ newSector ∧ newSector < numSectors)
    (ht : 0 ≤ totalTicks) (hsum : d.arrival totalTicks newSector < 2 ^ 31) (writing : Bool) :
    (∃ (fromBuffer : Bool) (latency : Int),
      d.buffered newSector writing (d.seek newSector) (d.arrival totalTicks newSector) =
        .ok fromBuffer ∧
      d.computeLatency totalTicks newSector writing = .ok latency ∧ 0 < latency ∧
      (fromBuffer = true ↔ writing = false ∧
        newSector / sectorsPerTrack = d.lastSector / sectorsPerTrack ∧
        d.Passed totalTicks newSector) ∧
      (fromBuffer = true → latency = rotationTime) ∧
      (fromBuffer = false → rotationTime ∣ totalTicks + latency ∧
        (totalTicks + latency) / rotationTime ≡ newSector + 1 [ZMOD sectorsPerTrack] ∧
        latency < d.seek newSector + (sectorsPerTrack + 1) * rotationTime)) ∧
    new.Wf ∧ ∃ d' : DiskHead, d.updateLast totalTicks newSector = .ok d' ∧ d'.Wf := by
  refine ⟨?_, wf_new, h.updateLast hnew ht hsum⟩
  have hseek : 0 ≤ d.seek newSector := seek_nonneg
  have harr := arrival_bounds d totalTicks newSector
  have hwait := wait_bounds d totalTicks newSector
  obtain ⟨fromBuffer, hb, hiff⟩ := buffered_iff h hnew.1 ht hsum writing
  refine ⟨fromBuffer, _, hb, computeLatency_eq h hnew ht hsum hb, latency_pos _ _ _ _, hiff,
    fun hf => ?_, fun hf => ?_⟩
  · rw [latency, if_pos hf]
  · have hend : totalTicks + (d.arrival totalTicks newSector +
        (d.wait totalTicks newSector + 1) * rotationTime - totalTicks) =
        d.arrival totalTicks newSector + (d.wait totalTicks newSector + 1) * rotationTime := by
      omega
    rw [latency, if_neg (by simp [hf]), hend]
    refine ⟨Int.dvd_add (arrival_aligned d totalTicks newSector) (Int.dvd_mul_left _ _), passed_behind, ?_⟩
    unfold sectorsPerTrack at *
    unfold rotationTime at *
    omega

/-- A read behind a seek, of a sector on the second track; and one on the first, whose slot
has passed under the head already, from the track buffer. -/
theorem computeLatency_passed_buffered : (∃ latency, new.computeLatency 10 40 false = .ok latency ∧
      (10 + latency) / rotationTime ≡ 41 [ZMOD sectorsPerTrack]) ∧
    new.computeLatency 5000 3 false = .ok rotationTime := by
  constructor
  · obtain ⟨⟨fromBuffer, latency, -, hl, -, hiff, -, hend⟩, -⟩ :=
      @computeLatency_passed new 10 40 wf_new (by decide) (by decide) (by decide) false
    have hf : fromBuffer = false := by
      cases fromBuffer with
      | false => rfl
      | true => exact absurd (hiff.mp rfl).2.1 (by decide)
    exact ⟨latency, hl, (hend hf).2.1⟩
  · obtain ⟨⟨fromBuffer, latency, -, hl, -, hiff, hbuffer, -⟩, -⟩ :=
      @computeLatency_passed new 5000 3 wf_new (by decide) (by decide) (by decide) false
    have hpassed : new.Passed 5000 3 := ⟨3, by decide, by decide, by decide⟩
    rw [hl, hbuffer (hiff.mpr ⟨rfl, by decide, hpassed⟩)]

/-! ## Runs -/

/-- A request at some time. -/
structure Request where
  totalTicks : Int
  sectorNumber : Int
  writing : Bool

/-- The time is not negative, and the head arrives before an `int` overflows. -/
def InTime (d : DiskHead) (r : Request) : Prop :=
  0 ≤ r.totalTicks ∧ d.arrival r.totalTicks r.sectorNumber < 2 ^ 31

/-- The head behind a request. -/
def next (d : DiskHead) (r : Request) : Except Abort DiskHead := do
  let (d, _) ← d.request r.totalTicks r.sectorNumber r.writing
  return d

theorem request_cases {writing : Bool} {ticks : Int}
    (hx : d.request totalTicks newSector writing = .ok (d', ticks)) :
    d.computeLatency totalTicks newSector writing = .ok ticks ∧
      (0 ≤ newSector ∧ newSector < numSectors) ∧ d.updateLast totalTicks newSector = .ok d' := by
  obtain ⟨t, hl, hx⟩ := bind_eq_ok.mp hx
  obtain ⟨u, hr, hx⟩ := bind_eq_ok.mp hx
  obtain ⟨d₁, hu, hx⟩ := bind_eq_ok.mp hx
  cases hx
  exact ⟨hl, assert_eq_ok.mp hr, hu⟩

/-- In every run the track buffer is started at the start of a slot. -/
theorem reachable_wf (h : ((System.ofFun new next).restrict InTime).Reachable d) : d.Wf := by
  refine h.invariant (I := Wf) ?_ ?_
  · rintro _ rfl
    exact wf_new
  · rintro d r d' hd ⟨⟨ht, hsum⟩, hx⟩
    obtain ⟨⟨d₁, ticks⟩, hr, hx⟩ := bind_eq_ok.mp hx
    cases hx
    obtain ⟨-, hnew, hu⟩ := request_cases hr
    obtain ⟨d₂, hu', hwf⟩ := hd.updateLast hnew ht hsum
    cases hu.symm.trans hu'
    exact hwf

/-- In every run the disk accepts a request of one of its sectors, and schedules its
interrupt for later: the `ASSERT` of `Interrupt::Schedule` holds. -/
theorem reachable_request (h : ((System.ofFun new next).restrict InTime).Reachable d)
    (hnew : 0 ≤ newSector ∧ newSector < numSectors) (ht : 0 ≤ totalTicks)
    (hsum : d.arrival totalTicks newSector < 2 ^ 31) (writing : Bool) :
    ∃ d' ticks, d.request totalTicks newSector writing = .ok (d', ticks) ∧ 0 < ticks ∧ d'.Wf := by
  have hwf := reachable_wf h
  obtain ⟨b, hb, -⟩ := buffered_iff hwf hnew.1 ht hsum writing
  have hl := computeLatency_eq hwf hnew ht hsum hb
  obtain ⟨d', hu, hwf'⟩ := hwf.updateLast hnew ht hsum
  refine ⟨d', _, ?_, latency_pos d totalTicks newSector b, hwf'⟩
  rw [request, hl, ok_bind, assert_of hnew, ok_bind, hu]
  rfl

end Nachos.DiskHead
