import Nachos.Framework.DoubleWord
import Nachos.Framework.System
import Nachos.Proof.Userprog.Access
import Nachos.Proof.Userprog.Memory

/-!
# Main memory as an array of bytes

`Access.answer` and `Access.effect` are a read and a write of an array of bytes,
and `Access.Works` says that the machine does the same in the frame of the
access. A legal access works exactly when no counter is full and four bytes from
its address on are in main memory (`Legal.works_iff`), so in a run of legal
accesses that meet this, main memory is the array that their effects give
(`Compared.Kept`).
-/

namespace Nachos.Vm

/-! ## Little-endian bytes -/

/-- Byte `i` of a number. -/
def byteOf (v : Int) (i : Nat) : Byte := BitVec.ofInt 8 (v / 256 ^ i)

theorem bytes_eq (size : Nat) (v : Int) : bytes size v = (List.range size).map (byteOf v) := rfl

theorem byteOf_eq {v : Int} {i : Nat} {b : Byte} (h : v / 256 ^ i % 256 = b.toNat) :
    byteOf v i = b := by
  refine BitVec.eq_of_toNat_eq ?_
  rw [byteOf, BitVec.toNat_ofInt]
  show (v / 256 ^ i % 256).toNat = _
  rw [h, Int.toNat_natCast]

/-- The bytes of what was read are the bytes that were read. -/
theorem bytes_value {bs : List Byte} (hs : bs.length = 1 ∨ bs.length = 2 ∨ bs.length = 4) :
    bytes bs.length (value bs) = bs := by
  rcases hs with hs | hs | hs
  · obtain ⟨b, rfl⟩ := List.length_eq_one_iff.mp hs
    have hb := b.isLt
    have : byteOf b.toInt 0 = b := byteOf_eq (by rw [BitVec.toInt_eq_toNat_cond]; split <;> omega)
    simp [bytes_eq, value, this]
  · obtain ⟨b₀, b₁, rfl⟩ := List.length_eq_two.mp hs
    have h₀ := b₀.isLt
    have h₁ := b₁.isLt
    have hv : ((b₁ ++ b₀).toNat : Int) = b₁.toNat * 256 + b₀.toNat := by
      rw [DoubleWord.toNat_append]
      omega
    have e₀ : byteOf (b₁ ++ b₀).toNat 0 = b₀ := byteOf_eq (by rw [hv]; omega)
    have e₁ : byteOf (b₁ ++ b₀).toNat 1 = b₁ := byteOf_eq (by rw [hv]; omega)
    simp [bytes_eq, value, List.range_succ, e₀, e₁]
  · obtain ⟨b₀, b₁, b₂, b₃, rfl⟩ : ∃ b₀ b₁ b₂ b₃, bs = [b₀, b₁, b₂, b₃] := by
      cases bs with
      | nil => cases hs
      | cons b₀ bs =>
        obtain ⟨b₁, b₂, b₃, rfl⟩ := List.length_eq_three.mp (Nat.succ.inj hs)
        exact ⟨b₀, b₁, b₂, b₃, rfl⟩
    have h₀ := b₀.isLt
    have h₁ := b₁.isLt
    have h₂ := b₂.isLt
    have h₃ := b₃.isLt
    have hn : (b₃ ++ b₂ ++ b₁ ++ b₀).toNat =
        ((b₃.toNat * 2 ^ 8 + b₂.toNat) * 2 ^ 8 + b₁.toNat) * 2 ^ 8 + b₀.toNat := by
      rw [DoubleWord.toNat_append, DoubleWord.toNat_append, DoubleWord.toNat_append]
    have hv : (b₃ ++ b₂ ++ b₁ ++ b₀).toInt % 2 ^ 32 = (b₃ ++ b₂ ++ b₁ ++ b₀).toNat := by
      rw [BitVec.toInt_eq_toNat_cond]
      split <;> omega
    rw [hn] at hv
    obtain ⟨v, hdef⟩ : ∃ v, v = (b₃ ++ b₂ ++ b₁ ++ b₀).toInt := ⟨_, rfl⟩
    rw [← hdef] at hv
    have e₀ : byteOf v 0 = b₀ := byteOf_eq (by omega)
    have e₁ : byteOf v 1 = b₁ := byteOf_eq (by omega)
    have e₂ : byteOf v 2 = b₂ := byteOf_eq (by omega)
    have e₃ : byteOf v 3 = b₃ := byteOf_eq (by omega)
    rw [value, ← hdef]
    simp [bytes_eq, List.range_succ, e₀, e₁, e₂, e₃]

/-! ## Accesses -/

/-- An access to memory. -/
inductive Access
  | read (addr : Int) (size : Nat)
  | write (addr : Int) (size : Nat) (value : Int)
  deriving DecidableEq

namespace Access

def addr : Access → Int
  | .read addr _ | .write addr _ _ => addr

def size : Access → Nat
  | .read _ size | .write _ size _ => size

def writing : Access → Bool
  | .read _ _ => false
  | .write _ _ _ => true

/-- The access of the machine: the bytes read, or `none` after an exception. -/
def perform (cfg : Config) (env : Env) (s : Vm) : Access → Except Abort (Vm × Option (List Byte))
  | .read addr size => do
    let (s, v) ← s.readMem cfg env addr size
    return (s, v.map (bytes size))
  | .write addr size v => do
    let (s, written) ← s.writeMem cfg env addr size v
    return (s, if written then some [] else none)

/-- The bytes that the access reads, of an array of bytes at `pa`. -/
def answer (pa : Nat) (m : Nat → Byte) : Access → List Byte
  | .read _ size => (List.range size).map fun i => m (pa + i)
  | .write _ _ _ => []

/-- The array behind the access. -/
def effect (pa : Nat) (m : Nat → Byte) : Access → Nat → Byte
  | .read _ _ => m
  | .write _ size v => fun x => if pa ≤ x ∧ x < pa + size then byteOf v (x - pa) else m x

/-- The place in main memory of the access, in a frame. -/
def place (a : Access) (frame : Int) : Nat := physical frame a.addr

/-- The access succeeds, reads and writes what an array of bytes does, and keeps
to the frame. -/
def Works (cfg : Config) (env : Env) (s : Vm) (frame : Int) (a : Access) : Prop :=
  ∃ s', a.perform cfg env s = .ok (s', some (a.answer (a.place frame) s.mainMemory)) ∧
    s'.mainMemory = a.effect (a.place frame) s.mainMemory ∧
    ∀ x : Nat, (x / pageSize : Int) ≠ frame → s'.mainMemory x = s.mainMemory x

theorem blit_bytes (m : Nat → Byte) (pa size : Nat) (v : Int) : blit m pa (bytes size v) =
    fun x => if pa ≤ x ∧ x < pa + size then byteOf v (x - pa) else m x := by
  funext x
  rw [blit_apply, bytes_eq, List.getElem?_map]
  by_cases hle : pa ≤ x
  · by_cases hlt : x < pa + size
    · rw [if_pos hle, if_pos ⟨hle, hlt⟩, List.getElem?_range (by omega)]
      rfl
    · rw [if_pos hle, if_neg (fun h => hlt h.2), List.getElem?_eq_none (by simpa using by omega)]
      rfl
  · rw [if_neg hle, if_neg (fun h => hle h.1)]

/-- An access whose translation succeeds. -/
theorem perform_ok {cfg : Config} {env : Env} {s s' : Vm} {a : Access} {pa : Nat}
    (hs : a.size = 1 ∨ a.size = 2 ∨ a.size = 4) (hpa : pa + a.size ≤ memorySize)
    (hm : s'.mainMemory = s.mainMemory)
    (ht : s.translate cfg env a.addr a.size a.writing = .ok (s', .ok (pa : Int))) :
    a.perform cfg env s = .ok ({ s' with mainMemory := a.effect pa s.mainMemory },
      some (a.answer pa s.mainMemory)) := by
  cases a with
  | read addr size =>
    have hfetch : s'.fetch pa size = .ok ((List.range size).map fun i => s.mainMemory (pa + i)) := by
      rw [fetch_eq_ok, hm]
      simp only [Access.size] at hpa
      exact ⟨Int.natCast_nonneg pa, by omega, rfl⟩
    have hlen := @bytes_value ((List.range size).map fun i => s.mainMemory (pa + i))
      (by simpa [Access.size] using hs)
    rw [List.length_map, List.length_range] at hlen
    simp only [Access.size, Access.addr, Access.writing] at hs ht
    simp only [perform, readMem, ht, ok_bind, assert_of hs, hfetch]
    simp only [pure, Except.pure, ok_bind, Option.map_some, hlen]
    exact congrArg (fun m => Except.ok (({ s' with mainMemory := m } : Vm), _)) hm
  | write addr size v =>
    have hstore : s'.store pa (bytes size v) =
        .ok { s' with mainMemory := (write addr size v).effect pa s.mainMemory } := by
      rw [store_eq_ok, hm, Int.toNat_natCast, blit_bytes]
      simp only [Access.size] at hpa
      simp only [bytes_eq, List.length_map, List.length_range]
      exact ⟨Int.natCast_nonneg pa, by omega, rfl⟩
    simp only [Access.size, Access.addr, Access.writing] at hs ht
    simp only [perform, writeMem, ht, ok_bind, assert_of hs, hstore]
    rfl

/-- An access changes the bytes from its place on only. -/
theorem effect_ne {a : Access} {pa x : Nat} (m : Nat → Byte) (hx : ¬ (pa ≤ x ∧ x < pa + a.size)) :
    a.effect pa m x = m x := by
  cases a with
  | read addr size => rfl
  | write addr size v => exact if_neg hx

end Access

section
variable {cfg : Config} {env : Env} {s : Vm} {sp : AddrSpace} {a : Access} {frame : Int}
  {e : TranslationEntry}

/-- A legal access is inside its frame. -/
theorem Legal.inside (h : s.Legal cfg sp a.addr a.size a.writing frame e) :
    (a.place frame : Int) = frame * pageSize + a.addr % pageSize ∧
      a.addr % pageSize + a.size ≤ pageSize := by
  have hf := h.frame
  have hal := h.aligned
  unfold Access.place physical
  unfold pageSize numPhysPages at *
  rcases h.sized with hs | hs | hs <;> rw [hs] at hal ⊢ <;> constructor <;> omega

theorem mainMemory_touched (vpn : Int) :
    (s.touched cfg sp vpn frame).mainMemory = s.mainMemory := by
  have hset := fun t => (@setTable_fields cfg s sp t).2.1
  unfold touched
  split
  · split <;> exact hset _
  · rfl

/-- What a legal access does. -/
theorem Legal.perform (env : Env) (h : s.Legal cfg sp a.addr a.size a.writing frame e) (hrun : s.Running cfg sp)
    (hroom : s.LruRoom cfg sp (a.addr / pageSize) frame) (hfits : Fits a.addr frame) :
    a.perform cfg env s = .ok
      ({ s.touched cfg sp (a.addr / pageSize) frame with
          mainMemory := a.effect (a.place frame) s.mainMemory },
        some (a.answer (a.place frame) s.mainMemory)) := by
  have hplace := h.inside.1
  refine Access.perform_ok h.sized ?_ (mainMemory_touched _) ?_
  · have hs := h.sized
    unfold Fits at hfits
    omega
  · rw [hplace]
    exact h.translate_ok env hrun hroom hfits

/-- A legal access works exactly when no counter is full and the four bytes from
its address on are in main memory. -/
theorem Legal.works_iff (h : s.Legal cfg sp a.addr a.size a.writing frame e) (hrun : s.Running cfg sp) :
    a.Works cfg env s frame ↔ s.LruRoom cfg sp (a.addr / pageSize) frame ∧ Fits a.addr frame := by
  constructor
  · rintro ⟨s', hp, -, -⟩
    by_contra hnot
    cases a with
    | read addr size =>
      obtain ⟨err, he⟩ := h.translate_error env hrun hnot
      simp only [Access.addr, Access.size, Access.writing] at he
      simp only [Access.perform, readMem, he] at hp
      cases hp
    | write addr size v =>
      obtain ⟨err, he⟩ := h.translate_error env hrun hnot
      simp only [Access.addr, Access.size, Access.writing] at he
      simp only [Access.perform, writeMem, he] at hp
      cases hp
  · rintro ⟨hroom, hfits⟩
    refine ⟨_, h.perform env hrun hroom hfits, rfl, fun x hx => Access.effect_ne _ fun hin => hx ?_⟩
    obtain ⟨hplace, hoff⟩ := h.inside
    unfold pageSize at *
    omega

end

/-! ## Runs -/

/-- A machine, and the array of bytes that its main memory should be. -/
structure Compared where
  machine : Vm
  array : Nat → Byte

/-- The frame of a page at the start of a run. -/
def frameOf (cfg : Config) (s : Vm) (sp : AddrSpace) (addr : Int) : Int :=
  ((s.mapping cfg sp (addr / pageSize)).map Prod.fst).getD 0

/-- The accesses of the running thread, from the state `s` on, on the machine and
on the array. -/
def accesses (cfg : Config) (s : Vm) (sp : AddrSpace) : Framework.System Compared (Access × Env) where
  init x := x = ⟨s, s.mainMemory⟩
  step x a x' := ∃ r, a.1.perform cfg a.2 x.machine = .ok (x'.machine, r) ∧
    x'.array = a.1.effect (a.1.place (s.frameOf cfg sp a.1.addr)) x.array

/-- The access is legal at the start and does not stop the simulator: the `ASSERT`
holds and no counter is full. -/
def Meets (cfg : Config) (s : Vm) (sp : AddrSpace) (x : Compared) (a : Access × Env) : Prop :=
  ∃ frame e, s.Legal cfg sp a.1.addr a.1.size a.1.writing frame e ∧ Fits a.1.addr frame ∧
    ∀ sp', x.machine.Running cfg sp' → x.machine.LruRoom cfg sp' (a.1.addr / pageSize) frame

/-- Nothing but main memory and flags has changed since the start, and main
memory is the array. -/
structure Compared.Kept (cfg : Config) (s : Vm) (sp : AddrSpace) (x : Compared) : Prop where
  array : x.machine.mainMemory = x.array
  running : ∃ sp', x.machine.Running cfg sp' ∧ sp'.core = sp.core ∧
    core { x.machine with mainMemory := s.mainMemory } = s.core

theorem frameOf_legal {cfg : Config} {s : Vm} {sp : AddrSpace} {addr frame : Int} {size : Nat}
    {writing : Bool} {e : TranslationEntry} (h : s.Legal cfg sp addr size writing frame e) :
    s.frameOf cfg sp addr = frame := by
  rw [frameOf, h.mapped]
  rfl

namespace Compared.Kept

variable {cfg : Config} {s : Vm} {sp : AddrSpace} {x : Compared}

/-- What the next access does. -/
theorem perform (h : x.Kept cfg s sp) {a : Access × Env} (hm : Meets cfg s sp x a) :
    ∃ s', a.1.perform cfg a.2 x.machine = .ok
        (s', some (a.1.answer (a.1.place (s.frameOf cfg sp a.1.addr)) x.array)) ∧
      Compared.Kept cfg s sp ⟨s', a.1.effect (a.1.place (s.frameOf cfg sp a.1.addr)) x.array⟩ := by
  obtain ⟨frame, e, hlegal, hfits, hroom⟩ := hm
  obtain ⟨sp₁, hrun, hcsp, hcore⟩ := h.running
  obtain ⟨e₁, hl⟩ := hlegal.of_core hcore hcsp
  have hl : x.machine.Legal cfg sp₁ a.1.addr a.1.size a.1.writing frame e₁ :=
    ⟨hl.sized, hl.aligned, hl.range, hl.mapped, hl.writable, hl.frame⟩
  have hp := hl.perform a.2 hrun (hroom sp₁ hrun) hfits
  rw [frameOf_legal hlegal, ← h.array]
  refine ⟨_, hp, rfl, ?_⟩
  obtain ⟨sp₂, hc, hcsp', hrun', -⟩ := hl.touched hrun
  refine ⟨sp₂, ⟨hrun'.space, hrun'.linear, hrun'.inverted, hrun'.tlb⟩, hcsp'.trans hcsp, ?_⟩
  rw [← hcore]
  exact congrArg (fun t : Vm => { t with mainMemory := s.mainMemory }) hc

/-- A run keeps it. -/
theorem reachable (hrun : s.Running cfg sp)
    (h : ((accesses cfg s sp).restrict (Meets cfg s sp)).Reachable x) : x.Kept cfg s sp := by
  refine h.invariant (I := Compared.Kept cfg s sp) ?_ ?_
  · rintro _ rfl
    exact ⟨rfl, sp, hrun, rfl, rfl⟩
  · rintro x a ⟨s₁, m⟩ hx ⟨hm, r, hp, hm'⟩
    obtain ⟨s', hp', hk⟩ := hx.perform hm
    rw [hp] at hp'
    cases hp'
    simp only at hm'
    rw [hm']
    exact hk

/-- Accesses that can always be made are a run, one after the other. -/
theorem exists_run (hrun : s.Running cfg sp) (as : List (Access × Env))
    (h : ∀ x, ∀ a ∈ as, Meets cfg s sp x a) : ∃ x,
      ((accesses cfg s sp).restrict (Meets cfg s sp)).Reachable x ∧ x.array =
        as.foldl (fun m a => a.1.effect (a.1.place (s.frameOf cfg sp a.1.addr)) m) s.mainMemory := by
  induction as using List.reverseRecOn with
  | nil => exact ⟨_, .init rfl, rfl⟩
  | append_singleton as a ih =>
    obtain ⟨x, hx, harray⟩ := ih fun x a' ha => h x a' (List.mem_append_left _ ha)
    have hm := h x a (by simp)
    obtain ⟨s', hp, -⟩ := (Kept.reachable hrun hx).perform hm
    refine ⟨⟨s', a.1.effect (a.1.place (s.frameOf cfg sp a.1.addr)) x.array⟩,
      hx.step ⟨hm, _, hp, rfl⟩, ?_⟩
    rw [List.foldl_append, ← harray]
    rfl

end Compared.Kept

/-- A legal access works exactly when the `ASSERT` of `Translate` holds and no
counter is full, and in every run of legal accesses that meet this, main memory is
the array of bytes that they make of it, and each answers what the array has. -/
theorem legal_accesses_work (cfg : Config) (s : Vm) (sp : AddrSpace) (hrun : s.Running cfg sp) :
    (∀ (env : Env) (a : Access) (frame : Int) (e : TranslationEntry),
      s.Legal cfg sp a.addr a.size a.writing frame e →
      (a.Works cfg env s frame ↔ s.LruRoom cfg sp (a.addr / pageSize) frame ∧ Fits a.addr frame)) ∧
    ∀ x : Compared, ((accesses cfg s sp).restrict (Meets cfg s sp)).Reachable x →
      x.machine.mainMemory = x.array ∧
      ∀ a : Access × Env, Meets cfg s sp x a → ∃ s', a.1.perform cfg a.2 x.machine = .ok
          (s', some (a.1.answer (a.1.place (s.frameOf cfg sp a.1.addr)) x.array)) ∧
        s'.mainMemory = a.1.effect (a.1.place (s.frameOf cfg sp a.1.addr)) x.array := by
  refine ⟨fun env a frame e h => h.works_iff hrun, fun x hx => ?_⟩
  have hk := Compared.Kept.reachable hrun hx
  refine ⟨hk.array, fun a ha => ?_⟩
  obtain ⟨s', hp, hk'⟩ := hk.perform ha
  exact ⟨s', hp, hk'.array⟩

/-- The address space of a program of one page, which is in the last frame. -/
def lastFrameSpace : AddrSpace where
  program := ⟨[], 0, 1⟩
  pt := [{ TranslationEntry.reset with valid := true, vpn := 0, ppn := 127 }]
  vmFile := []

def lastFrame : Vm where
  mmBitmap := .new numPhysPages
  mainMemory := fun _ => 0
  pt := []
  tlb := []
  threadArray := [some ⟨some lastFrameSpace, none, false⟩]
  currentThread := 0

theorem running_lastFrame : lastFrame.Running ⟨false, false, false, false⟩ lastFrameSpace :=
  ⟨rfl, fun _ => rfl, fun h => absurd h (by decide), fun h => absurd h (by decide)⟩

theorem legal_lastFrame_sized {a : Access} (hs : a.size = 1 ∨ a.size = 2 ∨ a.size = 4)
    (hal : a.addr % a.size = 0) (h : 0 ≤ a.addr ∧ a.addr < 128) :
    lastFrame.Legal ⟨false, false, false, false⟩ lastFrameSpace a.addr a.size a.writing 127
      (lastFrameSpace.pt.nth 0) := by
  refine ⟨hs, hal, h, ?_, fun _ => rfl, by decide⟩
  have hv : a.addr / pageSize = 0 := Int.ediv_eq_zero_of_lt h.1 h.2
  rw [hv]
  rfl

theorem legal_lastFrame {a : Int} (h : 0 ≤ a ∧ a < 128) :
    lastFrame.Legal ⟨false, false, false, false⟩ lastFrameSpace a 1 false 127
      (lastFrameSpace.pt.nth 0) :=
  legal_lastFrame_sized (a := .read a 1) (.inl rfl) (Int.emod_one a) h

/-- A word is stored near the end of the last frame, and a half word and a byte in it. -/
def lastStores : List Access := [.write 120 4 0x04030201, .write 122 2 0x0605, .write 121 1 7]

/-- Each store works, and behind them a load of the word and one of its second half. -/
theorem legal_accesses_work_lastFrame :
    (∀ a ∈ lastStores, a.Works ⟨false, false, false, false⟩ .blank lastFrame 127) ∧
    ∃ x : Compared, ((accesses ⟨false, false, false, false⟩ lastFrame lastFrameSpace).restrict
        (Meets ⟨false, false, false, false⟩ lastFrame lastFrameSpace)).Reachable x ∧
      (∃ s', (Access.read 120 4).perform ⟨false, false, false, false⟩ .blank x.machine =
        .ok (s', some [1, 7, 5, 6])) ∧
      ∃ s', (Access.read 122 2).perform ⟨false, false, false, false⟩ .blank x.machine =
        .ok (s', some [5, 6]) := by
  obtain ⟨hworks, hrun⟩ := legal_accesses_work ⟨false, false, false, false⟩ _ _ running_lastFrame
  have hlegal : ∀ a : Access, a ∈ lastStores ++ [.read 120 4, .read 122 2] →
      lastFrame.Legal ⟨false, false, false, false⟩ lastFrameSpace a.addr a.size a.writing 127
        (lastFrameSpace.pt.nth 0) ∧ Fits a.addr 127 := by
    have hall : ∀ a : Access, a ∈ lastStores ++ [.read 120 4, .read 122 2] →
        (a.size = 1 ∨ a.size = 2 ∨ a.size = 4) ∧ a.addr % a.size = 0 ∧
        (0 ≤ a.addr ∧ a.addr < 128) ∧ Fits a.addr 127 := by
      decide
    intro a ha
    obtain ⟨hs, hal, h, hf⟩ := hall a ha
    exact ⟨legal_lastFrame_sized hs hal h, hf⟩
  have hmeets : ∀ (x : Compared) (a : Access), a ∈ lastStores ++ [.read 120 4, .read 122 2] →
      Meets ⟨false, false, false, false⟩ lastFrame lastFrameSpace x (a, .blank) :=
    fun x a ha => ⟨127, _, (hlegal a ha).1, (hlegal a ha).2, fun _ _ h => absurd h (by decide)⟩
  obtain ⟨x, hx, harray⟩ := Compared.Kept.exists_run running_lastFrame
    (lastStores.map fun a => (a, .blank)) fun x a ha => by
      obtain ⟨a', ha', rfl⟩ := List.mem_map.mp ha
      exact hmeets x a' (List.mem_append_left _ ha')
  refine ⟨fun a ha => ?_, x, hx, ?_, ?_⟩
  · obtain ⟨hl, hf⟩ := hlegal a (List.mem_append_left _ ha)
    exact (hworks .blank a 127 _ hl).mpr ⟨fun h => absurd h (by decide), hf⟩
  · obtain ⟨s', hp, -⟩ := (hrun x hx).2 (.read 120 4, .blank) (hmeets x _ (by simp))
    rw [harray] at hp
    exact ⟨s', hp⟩
  · obtain ⟨s', hp, -⟩ := (hrun x hx).2 (.read 122 2, .blank) (hmeets x _ (by simp))
    rw [harray] at hp
    exact ⟨s', hp⟩

/-- The last byte of main memory cannot. -/
theorem not_legal_accesses_work : ¬ ∀ (cfg : Config) (env : Env) (s : Vm) (sp : AddrSpace)
    (a : Access) (frame : Int) (e : TranslationEntry), s.Running cfg sp →
    s.Legal cfg sp a.addr a.size a.writing frame e → a.Works cfg env s frame := by
  intro hall
  have hl := legal_lastFrame (a := 127) (by decide)
  have := (hl.works_iff (a := .read 127 1) running_lastFrame).mp
    (hall _ .blank _ _ (.read 127 1) 127 _ running_lastFrame hl)
  exact absurd this.2 (by decide)

end Nachos.Vm
