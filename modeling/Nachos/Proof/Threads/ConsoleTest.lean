import Nachos.Impl.Threads.ConsoleTest
import Nachos.Proof.Threads.ConsoleInput
import Nachos.Proof.Threads.Driver

/-!
# The console test

In each run of `ConsoleTest` the display shows what was typed, in order and each
character once, up to the first `0xFF`, which is `EOF` as a `char`
(`reachable_echoes`). If nothing is left to happen, the loop has ended and it shows
all of that.

The two consoles keep their invariants. What is on the display and what the thread is
about to put there is what `GetChar` has returned (`Loop`).
-/

namespace Nachos

open Framework

/-! ## The next call -/

namespace Sync

variable {T K S A D : Type} [DecidableEq T] [DecidableEq K] [DecidableEq S]
  {c : Framework.Threads.Config (Sync T K S D) (List (SyncStmt K S A)) T}
  {t : T} {r : List (SyncStmt K S A)}

omit [DecidableEq S] in
/-- A thread that is done makes a call. -/
theorem Inv.call (h : Inv c) (ht : c.loc t = []) (hr : Balanced r) :
    Inv { c with loc := Function.update c.loc t r } := by
  have hp : place (c.loc t) = none := by
    rw [ht]
    rfl
  have ha : c.asleep t = false := by
    by_contra hs
    exact h.waiting.asleepAt t (by simpa using hs) hp
  refine h.move ha hr.wf hp fun l => ?_
  rw [ht, hr.free l]
  rfl

omit [DecidableEq T] [DecidableEq K] in
/-- A step leaves the code as it is, or has done its first statement. -/
theorem Did.tail {act : T → D → A → Except Abort D} {d d' : D} {v v' : S → Int}
    {r' : List (SyncStmt K S A)} (h : Did act t d v r d' v' r') : r' = r ∨ ∃ s, r = s :: r' := by
  cases h with
  | stay => exact .inl rfl
  | lock => exact .inr ⟨_, rfl⟩
  | p => exact .inr ⟨_, rfl⟩
  | v => exact .inr ⟨_, rfl⟩
  | act => exact .inr ⟨_, rfl⟩

end Sync

namespace SynchConsoleInput

variable {file : List Byte} {c c' : Config Unit}

theorem Inv.call (h : Inv file c) (hl : c.loc () = []) :
    Inv file { c with loc := fun _ => getChar } := by
  have hrest : Rest getChar := by
    have := rest_getChar (rest_calls 0)
    rwa [List.replicate_zero, List.flatten_nil, List.append_nil] at this
  have hloc : Function.update c.loc () getChar = fun _ => getChar := update_unit _ _
  refine ⟨?_, fun _ => hrest.shaped, ?_⟩
  · rw [← hloc]
    exact h.sync.call hl hrest.balanced
  · have htied := h.tied
    have hout : (fun t => takes (c.loc t)) = fun _ => takes getChar := by
      funext t
      rw [hl]
      rfl
    rw [hout] at htied
    exact htied

/-- A step of the thread takes as many characters as it does such statements. -/
theorem took {d d' : SynchConsoleInput Unit} {v v' : Unit → Int} {r r' : List GetCharStmt}
    (h : Sync.Did act () d v r d' v' r') : ∃ x, d'.got.map Prod.snd = d.got.map Prod.snd ++ x ∧
      x.length + r'.count (.act ()) = r.count (.act ()) := by
  cases h with
  | stay => exact ⟨[], (List.append_nil _).symm, Nat.zero_add _⟩
  | lock =>
    rename_i s hl
    refine ⟨[], (List.append_nil _).symm, ?_⟩
    rw [List.count_cons_of_ne (fun e => by rw [e] at hl; exact hl), List.length_nil, Nat.zero_add]
  | p =>
    refine ⟨[], (List.append_nil _).symm, ?_⟩
    rw [List.count_cons_of_ne (by simp), List.length_nil, Nat.zero_add]
  | v =>
    refine ⟨[], (List.append_nil _).symm, ?_⟩
    rw [List.count_cons_of_ne (by simp), List.length_nil, Nat.zero_add]
  | act =>
    rename_i a ha
    cases ha
    refine ⟨[d.consoleInput.getChar.2], List.map_append, ?_⟩
    rw [List.count_cons_self, List.length_singleton, Nat.add_comm]

/-- An interrupt takes none. -/
theorem Inv.interrupt_got (h : Inv file c) {ready : Bool} (hn : next c (.inr ready) = .ok c') :
    c'.loc = c.loc ∧ c'.shared.data.got = c.shared.data.got := by
  obtain ⟨-, hl, hh⟩ := h.sync.next_interrupt hn
  have hgot : ∀ {d d' : SynchConsoleInput Unit} {k : Option Unit},
      interrupt ready d = .ok (some (d', k)) → d'.got = d.got := by
    intro d d' k hi
    unfold interrupt at hi
    split at hi
    · cases hi
    · obtain ⟨_, -, hi⟩ := bind_eq_ok.mp hi
      cases hi
      rfl
  refine ⟨hl, ?_⟩
  generalize c'.shared.data = d' at hh ⊢
  generalize Sync.values c'.shared = v' at hh
  cases hh with
  | none => rfl
  | quiet hi => exact hgot hi
  | post hi => exact hgot hi

end SynchConsoleInput

namespace Driver

variable {c c' : Config Unit Byte Unit ConsoleOutput}

/-- The characters that the code is to put on the display. -/
def requests : List (DriverStmt Byte) → List Byte
  | [] => []
  | .act (.request b) :: r => b :: requests r
  | _ :: r => requests r

theorem Inv.call (h : Inv ConsoleOutput.putBusy c) (hl : c.loc () = []) (b : Byte) :
    Inv ConsoleOutput.putBusy { c with loc := fun _ => Driver.call b } := by
  have hrest : Rest (Driver.call b) := by
    have := rest_call b (rest_calls [])
    rwa [List.map_nil, List.flatten_nil, List.append_nil] at this
  have hloc : Function.update c.loc () (Driver.call b) = fun _ => Driver.call b :=
    SynchConsoleInput.update_unit _ _
  refine ⟨?_, fun _ => hrest.shaped, ?_, fun t => ?_⟩
  · rw [← hloc]
    exact h.sync.call hl hrest.balanced
  · have htied := h.tied
    have hout : (fun t => phase (c.loc t)) = fun _ => phase (Driver.call b) := by
      funext t
      rw [hl]
      rfl
    rw [hout] at htied
    exact htied
  · show _ = _ + owed (Driver.call b)
    rw [hrest.owed, h.returned t, hl]
    rfl

/-- A step of the thread puts what it is to put. -/
theorem put {d d' : Driver Unit Byte Unit ConsoleOutput} {v v' : Unit → Int}
    {r r' : List (DriverStmt Byte)} (h : Sync.Did (act ConsoleOutput.device) () d v r d' v' r') :
    d'.device.file ++ requests r' = d.device.file ++ requests r := by
  cases h with
  | stay => rfl
  | lock =>
    rename_i s hl
    cases s with
    | acquireP | acquireSet | releaseCheck | releaseV => rfl
    | p | v | act => exact hl.elim
  | p => rfl
  | v => rfl
  | act =>
    rename_i a ha
    cases a with
    | request b =>
      obtain ⟨x, hx, ha⟩ := bind_eq_ok.mp ha
      cases ha
      obtain ⟨-, -, hx⟩ := bind_eq_ok.mp hx
      cases hx
      exact List.append_assoc _ _ _
    | woken | ret =>
      cases ha
      rfl

/-- The interrupt puts nothing. -/
theorem Inv.interrupt_file (h : Inv ConsoleOutput.putBusy c)
    (hn : next ConsoleOutput.device c (.inr ()) = .ok c') :
    c'.loc = c.loc ∧ c'.shared.data.device.file = c.shared.data.device.file := by
  obtain ⟨-, hl, hh⟩ := h.sync.next_interrupt hn
  have hfile : ∀ {d d' : Driver Unit Byte Unit ConsoleOutput} {k : Option Unit},
      interrupt ConsoleOutput.device () d = .ok (some (d', k)) →
      d'.device.file = d.device.file := by
    intro d d' k hi
    unfold interrupt at hi
    split at hi
    · cases hi
    · cases hi
      rfl
  refine ⟨hl, ?_⟩
  generalize c'.shared.data = d' at hh ⊢
  generalize Sync.values c'.shared = v' at hh
  cases hh with
  | none => rfl
  | quiet hi => exact hfile hi
  | post hi => exact hfile hi

theorem Inv.console_ne_error (h : Inv ConsoleOutput.putBusy c) (j : Unit ⊕ Unit) (e : Abort) :
    next ConsoleOutput.device c j ≠ .error e := by
  intro he
  obtain ⟨t, r, l, -, -, hb, hr⟩ := h.asked he
  have hok : ConsoleOutput.putChar c.shared.data.device r =
      .ok (⟨true, c.shared.data.device.file ++ [r]⟩, ()) := by
    rw [ConsoleOutput.putChar, assert_of hb]
    rfl
  cases hok.symm.trans hr

end Driver

namespace ConsoleTest

variable {file : List Byte} {c c' : ConsoleTest}

/-! ## The loop -/

/-- What `GetChar` has returned. -/
def chars (c : ConsoleTest) : List Byte := c.synchConsoleIn.shared.data.got.map Prod.snd

/-- What is on the display. -/
def written (c : ConsoleTest) : List Byte := c.synchConsoleOut.shared.data.device.file

/-- What was put on the display, and what is to be put there, are the characters. -/
inductive Loop (chars written : List Byte) (i : List GetCharStmt) (o : List (DriverStmt Byte)) :
    EchoPhase → Prop
  | getChar (x : List Byte) (hi : i <:+ SynchConsoleInput.getChar) (ho : o = [])
    (hc : chars = written ++ x) (hx : x.length + i.count (.act ()) = 1)
    (hw : ∀ b ∈ written, b ≠ 0xFF) : Loop chars written i o .getChar
  | putChar (hi : i = []) (hc : chars = written ++ Driver.requests o) (hw : ∀ b ∈ chars, b ≠ 0xFF) :
    Loop chars written i o .putChar
  | done (hi : i = []) (ho : o = []) (hc : chars = written ++ [0xFF])
    (hw : ∀ b ∈ written, b ≠ 0xFF) : Loop chars written i o .done

structure Inv (file : List Byte) (c : ConsoleTest) : Prop where
  input : SynchConsoleInput.Inv file c.synchConsoleIn
  output : Driver.Inv ConsoleOutput.putBusy c.synchConsoleOut
  loop : Loop c.chars c.written (c.synchConsoleIn.loc ()) (c.synchConsoleOut.loc ()) c.phase

theorem count_getChar :
    ([] : List Byte).length + SynchConsoleInput.getChar.count (.act ()) = 1 := by decide

theorem inv_start (file : List Byte) : Inv file (start file) where
  input := SynchConsoleInput.inv_start file _
  output := Driver.inv_start rfl _
  loop := by
    have hloc : (start file).synchConsoleIn.loc () = SynchConsoleInput.getChar := rfl
    refine .getChar [] ?_ rfl rfl ?_ fun _ hb => absurd hb List.not_mem_nil
    · rw [hloc]
    · rw [hloc]
      exact count_getChar

/-- `ch` is the last character. -/
theorem ch_eq (c : ConsoleTest) : c.ch = c.chars.getLast? := by
  rw [ch, chars, List.getLast?_map]

/-- The thread in `GetChar`. -/
theorem Inv.reads (h : Inv file c) (hp : c.phase = .getChar)
    {y : SynchConsoleInput.Config Unit}
    (hy : SynchConsoleInput.next c.synchConsoleIn (.inl ()) = .ok y) :
    Inv file ⟨.getChar, y, c.synchConsoleOut⟩ := by
  have hloop := h.loop
  rw [hp] at hloop
  cases hloop with
  | getChar x hi ho hc hx hw =>
    obtain ⟨-, r, hr, hdid⟩ := h.input.sync.next_thread hy
    have hloc : y.loc () = r := by rw [hr, Function.update_self]
    obtain ⟨z, hz, hcount⟩ := SynchConsoleInput.took hdid
    refine ⟨h.input.next_thread hy, h.output, ?_⟩
    show Loop (y.shared.data.got.map Prod.snd) c.written (y.loc ()) _ _
    rw [hloc, hz]
    refine .getChar (x ++ z) ?_ ho ?_ ?_ hw
    · rcases hdid.tail with e | ⟨s, e⟩
      · rw [e]
        exact hi
      · rw [e] at hi
        exact (List.suffix_cons s r).trans hi
    · show c.chars ++ z = _
      rw [hc, List.append_assoc]
    · rw [List.length_append]
      omega

/-- The thread in `PutChar`. -/
theorem Inv.puts (h : Inv file c) (hp : c.phase = .putChar)
    {y : Driver.Config Unit Byte Unit ConsoleOutput}
    (hy : Driver.next ConsoleOutput.device c.synchConsoleOut (.inl ()) = .ok y) :
    Inv file ⟨.putChar, c.synchConsoleIn, y⟩ := by
  have hloop := h.loop
  rw [hp] at hloop
  cases hloop with
  | putChar hi hc hw =>
    obtain ⟨-, r, hr, hdid⟩ := h.output.sync.next_thread hy
    have hloc : y.loc () = r := by rw [hr, Function.update_self]
    refine ⟨h.input, h.output.next_thread Driver.flag_console hy, ?_⟩
    show Loop c.chars y.shared.data.device.file _ (y.loc ()) _
    rw [hloc]
    refine .putChar hi ?_ hw
    rw [hc]
    exact (Driver.put hdid).symm

/-- The end of a `GetChar`: its character. -/
theorem Inv.character (h : Inv file c) (hp : c.phase = .getChar)
    (hl : c.synchConsoleIn.loc () = []) :
    ∃ b, c.ch = some b ∧ c.chars = c.written ++ [b] ∧ c.synchConsoleOut.loc () = [] ∧
      ∀ b ∈ c.written, b ≠ 0xFF := by
  have hloop := h.loop
  rw [hp] at hloop
  cases hloop with
  | getChar x hi ho hc hx hw =>
    rw [hl, List.count_nil, Nat.add_zero] at hx
    obtain ⟨b, rfl⟩ := List.length_eq_one_iff.mp hx
    refine ⟨b, ?_, hc, ho, hw⟩
    rw [ch_eq, hc, List.getLast?_concat]

/-- A statement of the thread. -/
theorem Inv.thread (h : Inv file c) (hn : c.thread = .ok c') : Inv file c' := by
  unfold ConsoleTest.thread at hn
  cases hp : c.phase with
  | getChar =>
    simp only [hp] at hn
    cases hl : c.synchConsoleIn.loc () with
    | cons s r =>
      simp only [hl] at hn
      obtain ⟨y, hy, hn⟩ := bind_eq_ok.mp hn
      cases hn
      exact h.reads hp hy
    | nil =>
      obtain ⟨b, hch, hc, ho, hw⟩ := h.character hp hl
      simp only [hl, hch] at hn
      by_cases hb : b.toInt = eof
      · rw [if_neg (not_not.mpr hb)] at hn
        cases hn
        obtain rfl := SynchConsoleInput.eq_of_eof hb
        exact ⟨h.input, h.output, .done hl ho hc hw⟩
      · rw [if_pos hb] at hn
        cases hn
        refine ⟨h.input, h.output.call ho b, .putChar hl hc fun x hx => ?_⟩
        have hx : x ∈ c.chars := hx
        rw [hc] at hx
        rcases List.mem_append.mp hx with hx | hx
        · exact hw x hx
        · rw [List.mem_singleton.mp hx]
          rintro rfl
          exact hb rfl
  | putChar =>
    simp only [hp] at hn
    cases hl : c.synchConsoleOut.loc () with
    | cons s r =>
      simp only [hl] at hn
      obtain ⟨y, hy, hn⟩ := bind_eq_ok.mp hn
      cases hn
      exact h.puts hp hy
    | nil =>
      simp only [hl] at hn
      cases hn
      have hloop := h.loop
      rw [hp] at hloop
      cases hloop with
      | putChar hi hc hw =>
        rw [hl] at hc
        have hc : c.chars = c.written := hc.trans (List.append_nil _)
        refine ⟨h.input.call hi, h.output, .getChar [] List.suffix_rfl hl ?_ count_getChar ?_⟩
        · exact hc.trans (List.append_nil _).symm
        · exact fun b hb => hw b (hc ▸ hb)
  | done =>
    simp only [hp] at hn
    cases hn
    exact h

theorem Inv.next (h : Inv file c) {e : Event} (hn : c.next e = .ok c') : Inv file c' := by
  cases e with
  | thread => exact h.thread hn
  | keyboard ready =>
    obtain ⟨y, hy, hn⟩ := bind_eq_ok.mp hn
    cases hn
    obtain ⟨hl, hg⟩ := h.input.interrupt_got hy
    refine ⟨h.input.next_interrupt hy, h.output, ?_⟩
    show Loop (y.shared.data.got.map Prod.snd) _ (y.loc ()) _ _
    rw [hl, hg]
    exact h.loop
  | display =>
    obtain ⟨y, hy, hn⟩ := bind_eq_ok.mp hn
    cases hn
    obtain ⟨hl, hf⟩ := h.output.interrupt_file hy
    refine ⟨h.input, (h.output.next_interrupt Driver.flag_console hy).1, ?_⟩
    show Loop _ y.shared.data.device.file _ (y.loc ()) _
    rw [hl, hf]
    exact h.loop

theorem return_ne_error (a : ConsoleTest) (x : Abort) :
    (Except.ok a : Except Abort ConsoleTest) ≠ .error x := fun h => by cases h

/-- No `ASSERT` fails, and `ch` is set when the loop looks at it. -/
theorem Inv.next_ne_error (h : Inv file c) (e : Event) (x : Abort) : c.next e ≠ .error x := by
  cases e with
  | thread =>
    show c.thread ≠ _
    unfold ConsoleTest.thread
    cases hp : c.phase with
    | getChar =>
      cases hl : c.synchConsoleIn.loc () with
      | cons s r => exact bind_ne_error (h.input.next_ne_error _ _) fun _ _ => return_ne_error _ x
      | nil =>
        obtain ⟨b, hch, -⟩ := h.character hp hl
        simp only [hch]
        split <;> exact return_ne_error _ x
    | putChar =>
      cases hl : c.synchConsoleOut.loc () with
      | cons s r =>
        exact bind_ne_error (h.output.console_ne_error _ _) fun _ _ => return_ne_error _ x
      | nil => exact return_ne_error _ x
    | done => exact return_ne_error _ x
  | keyboard ready =>
    exact bind_ne_error (h.input.next_ne_error _ _) fun _ _ => return_ne_error _ x
  | display => exact bind_ne_error (h.output.console_ne_error _ _) fun _ _ => return_ne_error _ x

/-! ## What is on the display -/

/-- The bytes up to the first that is `EOF` as a `char`. -/
def echoed (file : List Byte) : List Byte := file.takeWhile (· ≠ 0xFF)

/-- The end of the file changes nothing. -/
theorem echoed_stream (file : List Byte) :
    echoed (SynchConsoleInput.stream file) = echoed file := by
  have hend : [BitVec.ofInt 8 eof].takeWhile (fun b : Byte => b ≠ 0xFF) = [] := by decide
  unfold echoed SynchConsoleInput.stream
  rw [List.takeWhile_append, hend, List.append_nil]
  split
  · rename_i hlen
    exact ((List.takeWhile_prefix _).eq_of_length hlen).symm
  · rfl

theorem echoed_append {w : List Byte} (hw : ∀ b ∈ w, b ≠ 0xFF) (r : List Byte) :
    echoed (w ++ r) = w ++ echoed r :=
  List.takeWhile_append_of_pos fun b hb => by simpa using hw b hb

theorem Loop.prefix_chars {chars written : List Byte} {i : List GetCharStmt}
    {o : List (DriverStmt Byte)} {p : EchoPhase} (h : Loop chars written i o p) :
    written <+: chars ∧ ∀ b ∈ written, b ≠ 0xFF := by
  cases h with
  | getChar x hi ho hc hx hw => exact ⟨hc ▸ List.prefix_append _ _, hw⟩
  | putChar hi hc hw =>
    have hpre : written <+: chars := hc ▸ List.prefix_append _ _
    exact ⟨hpre, fun b hb => hw b (hpre.subset hb)⟩
  | done hi ho hc hw => exact ⟨hc ▸ List.prefix_append _ _, hw⟩

theorem Inv.order (h : Inv file c) : c.written <+: echoed file := by
  obtain ⟨hpre, hw⟩ := h.loop.prefix_chars
  obtain ⟨r, hr⟩ := hpre.trans h.input.tied.order
  rw [← echoed_stream, ← hr, echoed_append hw]
  exact List.prefix_append _ _

theorem Inv.ended (h : Inv file c) (hp : c.phase = .done) : c.written = echoed file := by
  have hloop := h.loop
  rw [hp] at hloop
  cases hloop with
  | done hi ho hc hw =>
    obtain ⟨r, hr⟩ := h.input.tied.order
    have hr : c.chars ++ r = _ := hr
    have hstop : echoed ([0xFF] ++ r) = [] := rfl
    rw [← echoed_stream, ← hr, hc, List.append_assoc, echoed_append hw, hstop, List.append_nil]

/-! ## The end -/

/-- Nothing is left to happen: the thread sleeps, or the loop has ended, and no interrupt
is scheduled. -/
structure Idle (c : ConsoleTest) : Prop where
  thread : c.phase = .done ∨ c.synchConsoleIn.asleep () = true ∨ c.synchConsoleOut.asleep () = true
  keyboard : c.synchConsoleIn.shared.data.consoleInput.polls = 0
  display : c.synchConsoleOut.shared.data.pending = 0

/-- Where `GetChar` may sleep it has not taken the character. -/
theorem count_of_place {i : List GetCharStmt} (hi : i <:+ SynchConsoleInput.getChar)
    (hp : Sync.place i ≠ none) : i.count (.act ()) = 1 := by
  have hall : ∀ i ∈ SynchConsoleInput.getChar.tails,
      Sync.place i ≠ none → i.count (.act ()) = 1 := by decide
  exact hall i ((List.mem_tails _ _).mpr hi) hp

/-- A thread that sleeps is in a call. -/
theorem loc_ne_nil {K S A D : Type} [DecidableEq K] [DecidableEq S]
    {x : Framework.Threads.Config (Sync Unit K S D) (List (SyncStmt K S A)) Unit}
    (h : Sync.Inv x) (ha : x.asleep () = true) : x.loc () ≠ [] := fun hl =>
  h.waiting.asleepAt () ha (by rw [hl]; rfl)

theorem Inv.idle (h : Inv file c) (hi : c.Idle) : c.phase = .done := by
  have hloop := h.loop
  cases hp : c.phase with
  | getChar =>
    rw [hp] at hloop
    cases hloop with
    | getChar x hs ho hc hx hw =>
      have ha : c.synchConsoleIn.asleep () = true := by
        rcases hi.thread with hd | ha | ha
        · cases hp.symm.trans hd
        · exact ha
        · exact absurd ho (loc_ne_nil h.output.sync ha)
      -- The last character was `EOF`, and is not on the display.
      obtain ⟨-, k, b, hk, hb, he⟩ :=
        h.input.dead (fun _ => .inr ha) hi.keyboard (loc_ne_nil h.input.sync ha)
      rw [count_of_place hs (h.input.sync.waiting.asleepAt () ha)] at hx
      obtain rfl : x = [] := List.length_eq_zero_iff.mp (by omega)
      rw [List.append_nil] at hc
      obtain ⟨r, hr⟩ := h.input.tied.order
      have hr : c.chars ++ r = _ := hr
      have hlen : c.chars.length = k + 1 := (List.length_map _).trans hk
      rw [← hr, List.getElem?_append_left (by omega)] at hb
      have hmem : b ∈ c.written := hc ▸ List.mem_of_getElem? hb
      exact absurd (SynchConsoleInput.eq_of_eof he) (hw b hmem)
  | putChar =>
    rw [hp] at hloop
    cases hloop with
    | putChar hs hc hw =>
      have ha : c.synchConsoleOut.asleep () = true := by
        rcases hi.thread with hd | ha | ha
        · cases hp.symm.trans hd
        · exact absurd hs (loc_ne_nil h.input.sync ha)
        · exact ha
      have hl := h.output.finished (fun _ => .inr ha) hi.display ()
      exact absurd hl (loc_ne_nil h.output.sync ha)
  | done => rfl

/-! ## Runs -/

/-- The runs of `ConsoleTest`. -/
def system (file : List Byte) : System ConsoleTest Event := .ofFun (start file) next

/-- In each run the display shows, in order, what was typed before the first `0xFF`; no
`ASSERT` fails; when the loop has ended it shows all of it; and the loop has ended when
nothing is left to happen. -/
theorem reachable_echoes (h : (system file).Reachable c) :
    c.written <+: echoed file ∧ (∀ e x, c.next e ≠ .error x) ∧
      (c.phase = .done → c.written = echoed file) ∧ (c.Idle → c.phase = .done) := by
  have hI : Inv file c := by
    refine h.invariant (I := Inv file) ?_ ?_
    · rintro _ rfl
      exact inv_start file
    · intro c e c' hi hs
      exact hi.next hs
  exact ⟨hI.order, hI.next_ne_error, hI.ended, hI.idle⟩

/-- A letter is typed, and then nothing more. -/
def typed : List Event :=
  List.replicate 2 .thread ++ [.keyboard true] ++ List.replicate 8 .thread ++ [.display] ++
    List.replicate 8 .thread ++ [.keyboard true] ++ List.replicate 8 .thread

/-- It is on the display when the loop ends. -/
theorem reachable_echoes_typed : ∃ c, (system [97]).Reachable c ∧ c.phase = .done ∧
    c.written = [97] ∧ c.written <+: echoed [97] := by
  obtain ⟨c, h, hp⟩ := System.exists_reachable (start [97]) next typed
    (p := fun c => c.phase = .done) (by decide +kernel)
  have hp : c.phase = .done := of_decide_eq_true hp
  obtain ⟨hpre, -, hdone, -⟩ := reachable_echoes h
  exact ⟨c, h, hp, hdone hp, hpre⟩

end ConsoleTest

end Nachos
