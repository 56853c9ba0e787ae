import FenwickOS.Idt.Routing
import FenwickOS.Libk.Console
import FenwickOS.Libk.Variadic
import FenwickOS.Syscall.Counts
import FenwickOS.Syscall.Input
import FenwickOS.Syscall.Table

/-! System calls and interrupts over whole runs: `syscall_init` and the functions of
kernel/syscall/syscall.c behind `syscall_handle`. -/
namespace FenwickOS.Syscall
open Machine Drv Vfs
open Libk (Console)

inductive SyscallFn
  | sysWrite | sysRead | sysOpen | sysClose | sysGetchar | sysPutchar | sysExit | sysGetpid
  | sysTime
  deriving DecidableEq

def SyscallFn.all : List SyscallFn :=
  [.sysWrite, .sysRead, .sysOpen, .sysClose, .sysGetchar, .sysPutchar, .sysExit, .sysGetpid,
    .sysTime]

/-- Where the linker has put the functions and the format of `sys_exit`. -/
structure Addresses where
  fn : SyscallFn → Word
  exitFormat : Word
  fn_injective : Function.Injective fn
  fn_ne_zero : ∀ f, fn f ≠ 0#64

/-- The calls of `syscall_register` in `syscall_init`. -/
def initialCalls : List (BitVec 32 × SyscallFn) :=
  [(1#32, .sysWrite), (2#32, .sysRead), (4#32, .sysOpen), (5#32, .sysClose), (6#32, .sysGetchar),
    (7#32, .sysPutchar), (3#32, .sysExit), (8#32, .sysGetpid), (9#32, .sysTime)]

def syscallInit (a : Addresses) (t : SyscallTable) : SyscallTable :=
  run (fun t (num, f) => (syscallRegister num (a.fn f) t).2) t initialCalls

/-- `syscalls` and `syscall_count` as zeroed statics. -/
def bootTable : SyscallTable := ⟨fun _ => 0#64, 0⟩

/-- What system calls and interrupts work on; `stored` is what calls have stored in the memory of
their caller. `halted` is the loop at the end of `sys_exit`. -/
structure UserWorld where
  kernel : Kernel World
  console : Console
  interrupts : Idt.Routing
  stored : List (Word × List Byte)
  halted : Bool

def exitText : List Byte :=
  ['\n', '[', 'e', 'x', 'i', 't', ']', ' ', 's', 'h', 'e', 'l', 'l', ' ', 'r', 'e', 't', 'u', 'r',
    'n', 'e', 'd', ' ', 'w', 'i', 't', 'h', ' ', 'c', 'o', 'd', 'e', ' '].map ascii

/-- The format `\n[exit] shell returned with code %d\n`. -/
def exitFormat : List Byte := exitText ++ [ascii '%', ascii 'd', 0x0A#8]

/-- A call of `syscall_handle` with the memory it finds; `frame` is where `kprintf` runs. -/
structure UserCall (a : Addresses) where
  num : Word
  args : Fin 6 → Word
  mem : Memory
  frame : List Word → Libk.Frame
  format : cstring mem a.exitFormat = exitFormat

def pointer (m : Memory) (p : Word) : Option (Nat → Byte) :=
  if p = 0#64 then none else some fun i => m.byte (p + BitVec.ofNat 64 i)

def sysOpen (_path _flags : Word) : Word := -1#64
def sysClose (_fd : Word) : Word := 0#64
def sysGetchar (_unused : Word) : Word := 0#64
def sysGetpid (_unused : Word) : Word := 1#64
def sysTime (_unused : Word) (w : UserWorld) : Word := w.interrupts.state.timerTicks * 10#64

/-- The display driver and libk share the memory of the screen. -/
def sysExit (m : Memory) (frame : List Word → Libk.Frame) (format code : Word) (w : UserWorld) :
    UserWorld :=
  let vga := w.kernel.world.vga
  let console := Libk.ksetColor 0x0E#8 { w.console with video := ⟨vga.vgaBuffer, []⟩ }
  let console := Libk.kputsConsole ((Libk.kprintf m frame format [code]).getD []) console
  let vga := { vga with vgaBuffer := console.video.bytes }
  { w with
    kernel := { w.kernel with world := { w.kernel.world with vga := vga } }
    console := console
    halted := true }

variable {a : Addresses}

def a1 : Fin 6 := ⟨0, by decide⟩
def a2 : Fin 6 := ⟨1, by decide⟩
def a3 : Fin 6 := ⟨2, by decide⟩

/-- Results of type `int` are extended to `long`. The zero after the loop of `sys_exit` is never
returned. -/
def UserCall.perform (c : UserCall a) (f : SyscallFn) (args : Fin 6 → Word) (w : UserWorld) :
    Word × UserWorld :=
  match f with
  | .sysWrite =>
    let (n, kernel) := sysWrite (args a1) (pointer c.mem (args a2)) (args a3) w.kernel
    (BitVec.ofInt 64 n, { w with kernel := kernel })
  | .sysRead =>
    let (n, bytes, kernel) := sysRead (args a1) (args a2) (args a3) w.kernel
    (BitVec.ofInt 64 n, { w with kernel := kernel, stored := w.stored ++ [(args a2, bytes)] })
  | .sysOpen => (sysOpen (args a1) (args a2), w)
  | .sysClose => (sysClose (args a1), w)
  | .sysGetchar => (sysGetchar (args a1), w)
  | .sysPutchar =>
    let (n, kernel) := sysPutchar (args a1) w.kernel
    (BitVec.ofInt 64 n, { w with kernel := kernel })
  | .sysExit => (0#64, sysExit c.mem c.frame a.exitFormat (args a1) w)
  | .sysGetpid => (sysGetpid (args a1), w)
  | .sysTime => (sysTime (args a1) w, w)

/-- No other address is ever in the table. -/
def UserCall.handlers (c : UserCall a) : Handlers UserWorld := fun fn args w =>
  match SyscallFn.all.find? fun f => a.fn f = fn with
  | some f => c.perform f args w
  | none => (0#64, w)

inductive SessionEvent (a : Addresses)
  | call (c : UserCall a)
  | interrupt (d : Idt.Delivery)

/-- The kernel, and what the calls that have returned have answered. -/
structure Session where
  calls : SyscallState UserWorld
  answers : List Word

def Session.world (s : Session) : UserWorld := s.calls.kernel

def sessionStep (s : Session) : SessionEvent a → Session
  | .call c =>
    if s.world.halted then s
    else
      let (answer, calls) := syscallHandle c.handlers c.num c.args s.calls
      ⟨calls, if calls.kernel.halted then s.answers else s.answers ++ [answer]⟩
  | .interrupt d =>
    let interrupts := Idt.deliver s.world.interrupts d
    { s with calls := { s.calls with kernel := { s.world with interrupts := interrupts } } }

/-- After `subsystem_init` and `syscall_init`, with the interrupt code and libk in any state. -/
def Session.start (a : Addresses) (stack : StackNames) (w : World) (console : Console)
    (interrupts : Idt.Routing) : Session where
  calls :=
    { table := syscallInit a bootTable
      called := []
      kernel := ⟨subsystemInit stack (bootKernel w), console, interrupts, [], false⟩ }
  answers := []

/-! ### What a run looks like from outside -/

def syscallAt : Nat → Option SyscallFn
  | 1 => some .sysWrite
  | 2 => some .sysRead
  | 3 => some .sysExit
  | 4 => some .sysOpen
  | 5 => some .sysClose
  | 6 => some .sysGetchar
  | 7 => some .sysPutchar
  | 8 => some .sysGetpid
  | 9 => some .sysTime
  | _ => none

def UserCall.fn? (c : UserCall a) : Option SyscallFn := syscallAt c.num.toNat

def UserCall.exits (c : UserCall a) : Bool := c.fn? == some .sysExit

/-- What the call answers, wherever in a run it comes. -/
def UserCall.answer (ticks : Word) (c : UserCall a) : Word :=
  match c.fn? with
  | some .sysWrite =>
    if c.args a1 = 1#64 ∨ c.args a1 = 2#64 then
      if c.args a2 ≠ 0#64 ∧ toInt32 (c.args a3) > 0 then BitVec.ofInt 64 (toInt32 (c.args a3))
      else 0#64
    else -1#64
  | some .sysRead =>
    if c.args a1 = 0#64 ∧ c.args a2 ≠ 0#64 ∧ c.args a3 ≠ 0#64 then 0#64 else -1#64
  | some .sysClose | some .sysGetchar => 0#64
  | some .sysPutchar | some .sysGetpid => 1#64
  | some .sysTime => ticks * 10#64
  | some .sysOpen | some .sysExit | none => -1#64

/-- What the call writes on the screen. -/
def UserCall.written (c : UserCall a) : List Byte :=
  match c.fn? with
  | some .sysWrite =>
    if c.args a1 = 1#64 ∨ c.args a1 = 2#64 then handed (pointer c.mem (c.args a2)) (c.args a3) else []
  | some .sysPutchar => [(c.args a1).setWidth 8]
  | _ => []

def userCalls (events : List (SessionEvent a)) : List (UserCall a) :=
  events.filterMap fun
    | .call c => some c
    | .interrupt _ => none

/-- The calls before the first exit. -/
def returning (cs : List (UserCall a)) : List (UserCall a) := cs.takeWhile fun c => !c.exits

/-- What `sys_exit` prints, whatever the code. -/
def exitMessage : List Byte :=
  exitText ++ ['2', '0', '6', '1', '5', '8', '4', '3', '0', '2', '1', '6'].map ascii ++ [0x0A#8]

/-- The screen after the calls, and the console of libk. -/
def screenAfter (vga : Vga) (console : Console) (cs : List (UserCall a)) : Vga × Console :=
  let vga := run (fun vga c => vgaPutc c vga) vga ((returning cs).flatMap UserCall.written)
  if cs.any UserCall.exits then
    let console := Libk.kputsConsole exitMessage
      (Libk.ksetColor 0x0E#8 { console with video := ⟨vga.vgaBuffer, []⟩ })
    ({ vga with vgaBuffer := console.video.bytes }, console)
  else (vga, console)

variable {stack : StackNames} {w : World} {c : UserCall a} {u : UserWorld} {cs : List (UserCall a)}
  {s : Session} {f : SyscallFn} {k : Kernel World} {console : Console} {irq : Idt.IrqState}
  {events : List (SessionEvent a)}

/-! ### The table of `syscall_init` -/

theorem syscallRegister_syscalls {num : BitVec 32} {fn : Word} {i : Fin syscallMax}
    (hnum : num.toInt = i.val) (hfn : fn ≠ 0#64) (t : SyscallTable) :
    (syscallRegister num fn t).2.syscalls = Function.update t.syscalls i fn := by
  have hbounds : ¬ (num.toInt < 0 ∨ num.toInt ≥ syscallMax ∨ fn = 0#64) := by
    rintro (hneg | hlarge | hzero)
    · omega
    · have hi := i.isLt
      omega
    · exact hfn hzero
  have hslot : num.toInt.toNat = i.val := by omega
  have hlt : num.toInt.toNat < syscallMax := hslot ▸ i.isLt
  have hindex : (⟨num.toInt.toNat, hlt⟩ : Fin syscallMax) = i := Fin.ext hslot
  rw [syscallRegister, if_neg hbounds, dif_pos hlt, hindex]

theorem run_syscallRegister (a : Addresses) {calls : List (BitVec 32 × SyscallFn)}
    (hcalls : ∀ call ∈ calls, 0 ≤ call.1.toInt ∧ call.1.toInt < syscallMax) (t : SyscallTable)
    (i : Fin syscallMax) :
    (run (fun t (num, f) => (syscallRegister num (a.fn f) t).2) t calls).syscalls i =
      ((calls.reverse.find? fun call => call.1.toInt = (i.val : Int)).map fun call => a.fn call.2).getD
        (t.syscalls i) := by
  induction calls using List.reverseRecOn with
  | nil => rfl
  | append_singleton calls call ih =>
    obtain ⟨hinit, hlast⟩ := List.forall_mem_append.mp hcalls
    obtain ⟨hlow, hhigh⟩ := hlast call (List.mem_singleton_self _)
    have hnum : call.1.toInt = (⟨call.1.toInt.toNat, by omega⟩ : Fin syscallMax).val := by
      dsimp only
      omega
    rw [run_snoc, syscallRegister_syscalls hnum (a.fn_ne_zero _), List.reverse_append,
      List.reverse_singleton, List.singleton_append, List.find?_cons]
    by_cases hi : call.1.toInt = i.val
    · have hindex : i = ⟨call.1.toInt.toNat, by omega⟩ := Fin.ext (by dsimp only; omega)
      rw [decide_eq_true hi, ← hindex, Function.update_self]
      rfl
    · have hindex : i ≠ ⟨call.1.toInt.toNat, by omega⟩ := by
        rintro rfl
        exact hi hnum
      rw [decide_eq_false hi, Function.update_of_ne hindex]
      exact ih hinit

theorem syscallInit_syscalls (a : Addresses) (i : Fin syscallMax) :
    (syscallInit a bootTable).syscalls i = ((syscallAt i.val).map a.fn).getD 0#64 := by
  have hbounds : ∀ call ∈ initialCalls, 0 ≤ call.1.toInt ∧ call.1.toInt < syscallMax := by decide
  have hfound : ∀ i : Fin syscallMax,
      (initialCalls.reverse.find? fun call => call.1.toInt = (i.val : Int)).map Prod.snd =
        syscallAt i.val := by decide
  rw [syscallInit, run_syscallRegister a hbounds, ← hfound i, Option.map_map]
  rfl

/-- The handler behind a number is that of `syscall_init`. -/
theorem registered_syscallInit (a : Addresses) (num : Word) :
    registered (syscallInit a bootTable) num = (syscallAt num.toNat).map a.fn := by
  have hlt := num.isLt
  have hint : num.toInt = if num.toNat < 2 ^ 63 then (num.toNat : Int) else num.toNat - 2 ^ 64 := by
    rw [BitVec.toInt_eq_toNat_cond]
    split <;> split <;> omega
  have hout (h : 10 ≤ num.toNat) : syscallAt num.toNat = none := by
    obtain ⟨n, hn⟩ : ∃ n, num.toNat = n + 10 := ⟨num.toNat - 10, by omega⟩
    rw [hn]
    rfl
  unfold registered slot
  split
  · rename_i hslot
    have hnat : num.toInt.toNat = num.toNat := by
      rw [hint] at hslot ⊢
      split at hslot <;> omega
    rw [Option.bind_some, syscallInit_syscalls, ← hnat]
    dsimp only
    cases hf : syscallAt num.toInt.toNat with
    | none => rfl
    | some f => exact if_neg (a.fn_ne_zero f)
  · rename_i hslot
    rw [Option.bind_none, hout ?_]
    · rfl
    · by_contra hsmall
      have hpos : num.toNat < 2 ^ 63 := by omega
      have hmax : num.toNat < syscallMax := Nat.lt_of_lt_of_le (Nat.not_le.mp hsmall) (by decide)
      rw [if_pos hpos] at hint
      refine hslot ⟨?_, ?_⟩
      · omega
      · rwa [hint, Int.toNat_natCast]

theorem handlers_fn (c : UserCall a) (f : SyscallFn) (args : Fin 6 → Word) (u : UserWorld) :
    c.handlers (a.fn f) args u = c.perform f args u := by
  have hfind : (SyscallFn.all.find? fun g => a.fn g = a.fn f) = some f := by
    have hmem : f ∈ SyscallFn.all := by
      cases f <;> decide
    cases hfind : SyscallFn.all.find? fun g => a.fn g = a.fn f with
    | none =>
      have hno := List.find?_eq_none.mp hfind f hmem
      simp at hno
    | some g =>
      have hg := List.find?_some hfind
      rw [decide_eq_true_eq] at hg
      rw [a.fn_injective hg]
  rw [UserCall.handlers, hfind]

/-- What a call of `syscall_handle` does while the table is that of `syscall_init`. -/
theorem syscallHandle_init (c : UserCall a) {st : SyscallState UserWorld}
    (htable : st.table = syscallInit a bootTable) :
    syscallHandle c.handlers c.num c.args st =
      match c.fn? with
      | none => (-1#64, st)
      | some f =>
        let (answer, kernel) := c.perform f c.args st.kernel
        (answer, { st with called := st.called ++ [(a.fn f, c.args)], kernel := kernel }) := by
  rw [syscallHandle, htable, registered_syscallInit, UserCall.fn?]
  cases syscallAt c.num.toNat with
  | none => rfl
  | some f =>
    dsimp only [Option.map_some]
    rw [handlers_fn]

/-! ### One call -/

/-- `kprintf` takes the two offsets of its `va_list` for the code. -/
theorem kprintf_exit (c : UserCall a) (code : Word) :
    Libk.kprintf c.mem c.frame a.exitFormat [code] = some exitMessage := by
  have htext : ∀ b ∈ exitText, b ≠ ascii '%' := by decide
  have hdigits : Libk.decDigits Libk.offsetsWord =
      some (['2', '0', '6', '1', '5', '8', '4', '3', '0', '2', '1', '6'].map ascii) := by decide
  have hconv : Libk.conv? (ascii 'd') = some .d := by decide
  have hpercent : (0x0A#8 : Byte) ≠ ascii '%' := by decide
  rw [Libk.kprintf, Libk.kprintfVa, c.format, exitFormat, Libk.kprintfLoop_append,
    Libk.kprintfLoop_text htext, Option.bind_some]
  simp [Libk.kprintfLoop, Libk.kprintfStep, hconv, hpercent, Libk.Conv.emit, Libk.words_zero,
    hdigits, exitMessage]

def showBytes (bytes : List Byte) (k : Kernel World) : Kernel World :=
  { k with world :=
      { k.world with vga := run (fun vga c => vgaPutc c vga) k.world.vga bytes } }

/-- The tables are those of `subsystem_init`, and no key waits in the driver's buffer. -/
structure TablesKept (stack : StackNames) (w : World) (u : UserWorld) : Prop where
  registry : u.kernel.registry = (subsystemInit stack (bootKernel w)).registry
  vfs : u.kernel.vfs = (subsystemInit stack (bootKernel w)).vfs
  kbd : u.kernel.world.kbd.kbdBuffer.contents = []

theorem vfsWrite_shown (h : TablesKept stack w u) (buf : Option (Nat → Byte)) (len : Word) :
    vfsWrite vfsNodeStdout buf len u.kernel =
      (if buf.isSome ∧ toInt32 len > 0 then toInt32 len else 0,
        showBytes (handed buf len) u.kernel) := by
  have hto : StdoutTo 0 vgaWrite u.kernel.registry u.kernel.vfs := by
    rw [h.registry, h.vfs]
    exact stdoutTo_subsystemInit stack w
  have hshown := vgaDriverWrite_handed buf len u.kernel.world.vga
  rw [hto.vfsWrite]
  dsimp only [vgaWrite]
  rw [hshown]
  cases buf with
  | none => rfl
  | some buf => simp [showBytes, vgaDriverWrite]

theorem sysRead_nothing (h : TablesKept stack w u) (fd buf len : Word) :
    sysRead fd buf len u.kernel =
      (if fd = 0#64 ∧ buf ≠ 0#64 ∧ len ≠ 0#64 then 0 else -1, [], u.kernel) := by
  by_cases hfd : fd = 0#64
  · by_cases hempty : buf = 0#64 ∨ len = 0#64
    · have hfail : ¬ (fd = 0#64 ∧ buf ≠ 0#64 ∧ len ≠ 0#64) := by
        rintro ⟨-, hbuf, hlen⟩
        exact hempty.elim hbuf hlen
      rw [sysRead, if_pos hfd, vfsRead_kbd h.registry h.vfs, kbdDriverRead, if_pos hempty,
        if_neg hfail]
    · obtain ⟨hbuf, hlen⟩ := not_or.mp hempty
      rw [hfd, sysRead_empty h.registry h.vfs h.kbd hbuf hlen, if_pos ⟨rfl, hbuf, hlen⟩]
  · rw [sysRead, if_neg hfd, if_neg (fun hok => hfd hok.1)]

theorem written_eq_nil (hf : c.fn? = some f) (hwrite : f ≠ .sysWrite)
    (hputchar : f ≠ .sysPutchar) : c.written = [] := by
  unfold UserCall.written
  rw [hf]
  cases f with
  | sysWrite => exact absurd rfl hwrite
  | sysPutchar => exact absurd rfl hputchar
  | _ => rfl

theorem isSome_pointer (m : Memory) (p : Word) : (pointer m p).isSome ↔ p ≠ 0#64 := by
  unfold pointer
  split
  · rename_i hnull
    simp [hnull]
  · rename_i hptr
    simp [hptr]

/-- A call that returns answers as it always does and only writes on the screen. -/
theorem perform_returns (h : TablesKept stack w u) (hf : c.fn? = some f) (hreturns : f ≠ .sysExit) :
    ∃ stored : List (Word × List Byte), (∀ p ∈ stored, p.2 = []) ∧
      c.perform f c.args u = (c.answer u.interrupts.state.timerTicks,
        { u with kernel := showBytes c.written u.kernel, stored := u.stored ++ stored }) := by
  have hnothing : ∀ p ∈ ([] : List (Word × List Byte)), p.2 = [] :=
    fun p hp => absurd hp List.not_mem_nil
  cases f with
  | sysWrite =>
    refine ⟨[], hnothing, ?_⟩
    by_cases hfd : c.args a1 = 1#64 ∨ c.args a1 = 2#64
    · simp only [UserCall.perform, sysWrite, if_pos hfd, vfsWrite_shown h, UserCall.answer,
        UserCall.written, hf, List.append_nil, isSome_pointer]
      split <;> rfl
    · simp only [UserCall.perform, sysWrite, if_neg hfd, UserCall.answer, UserCall.written, hf,
        List.append_nil]
      rfl
  | sysRead =>
    refine ⟨[(c.args a2, [])], fun p hp => ?_, ?_⟩
    · rw [List.mem_singleton.mp hp]
    · have hwritten := written_eq_nil hf (by decide) (by decide)
      simp only [UserCall.perform, sysRead_nothing h, UserCall.answer, hf, hwritten]
      split <;> rfl
  | sysPutchar =>
    refine ⟨[], hnothing, ?_⟩
    simp only [UserCall.perform, sysPutchar, vfsWrite_shown h, UserCall.answer, UserCall.written, hf,
      List.append_nil]
    rfl
  | sysExit => exact absurd rfl hreturns
  | sysOpen | sysClose | sysGetchar | sysGetpid | sysTime =>
    refine ⟨[], hnothing, ?_⟩
    have hwritten := written_eq_nil hf (by decide) (by decide)
    simp only [UserCall.perform, UserCall.answer, hf, hwritten, List.append_nil]
    rfl

/-! ### Runs -/

/-- What the calls `cs` have answered and left, since the kernel was `k`, the console `console`
and the interrupt code in the state `irq`. -/
structure Observed (k : Kernel World) (console : Console) (irq : Idt.IrqState)
    (cs : List (UserCall a)) (s : Session) : Prop where
  table : s.calls.table = syscallInit a bootTable
  registry : s.world.kernel.registry = k.registry
  vfs : s.world.kernel.vfs = k.vfs
  ticks : s.world.interrupts.state.timerTicks = irq.timerTicks
  kbd : s.world.interrupts.state.kbd = irq.kbd
  halted : s.world.halted = cs.any UserCall.exits
  answers : s.answers = (returning cs).map (UserCall.answer irq.timerTicks)
  world : s.world.kernel.world =
    { k.world with vga := (screenAfter k.world.vga console cs).1 }
  console : s.world.console = (screenAfter k.world.vga console cs).2
  stored : ∀ p ∈ s.world.stored, p.2 = []

theorem returning_append (cs ds : List (UserCall a)) :
    returning (cs ++ ds) =
      if cs.any UserCall.exits then returning cs else cs ++ returning ds := by
  induction cs with
  | nil => rfl
  | cons c cs ih =>
    rw [returning] at ih ⊢
    rw [returning, List.cons_append, List.takeWhile_cons, List.takeWhile_cons, List.any_cons]
    cases c.exits with
    | true => rfl
    | false =>
      rw [Bool.false_or, Bool.not_false, if_pos rfl, if_pos rfl, ih]
      split <;> rfl

theorem returning_of_none (h : cs.any UserCall.exits = false) : returning cs = cs := by
  have happend := returning_append cs []
  rw [List.append_nil, if_neg (Bool.eq_false_iff.mp h)] at happend
  exact happend.trans (List.append_nil cs)

theorem any_snoc (cs : List (UserCall a)) (c : UserCall a) :
    (cs ++ [c]).any UserCall.exits = (cs.any UserCall.exits || c.exits) := by
  rw [List.any_append, List.any_cons, List.any_nil, Bool.or_false]

theorem screenAfter_of_any (h : cs.any UserCall.exits = true) (vga : Vga) (console : Console)
    (c : UserCall a) : screenAfter vga console (cs ++ [c]) = screenAfter vga console cs := by
  have hreturning : returning (cs ++ [c]) = returning cs := by
    rw [returning_append, if_pos h]
  simp only [screenAfter, hreturning, any_snoc, h, Bool.true_or]

theorem screenAfter_of_none (h : cs.any UserCall.exits = false) (vga : Vga) (console : Console) :
    screenAfter vga console cs =
      (run (fun vga c => vgaPutc c vga) vga (cs.flatMap UserCall.written), console) := by
  simp only [screenAfter, returning_of_none h, h]
  rfl

theorem screenAfter_snoc (h : cs.any UserCall.exits = false) (hc : c.exits = false) (vga : Vga)
    (console : Console) :
    screenAfter vga console (cs ++ [c]) =
      (run (fun vga c => vgaPutc c vga) (screenAfter vga console cs).1 c.written, console) := by
  have hsnoc : (cs ++ [c]).any UserCall.exits = false := by
    rw [any_snoc, h, hc]
    rfl
  rw [screenAfter_of_none hsnoc, screenAfter_of_none h, List.flatMap_append, run_append]
  simp

theorem screenAfter_exit (h : cs.any UserCall.exits = false) (hc : c.exits = true) (vga : Vga)
    (console : Console) :
    screenAfter vga console (cs ++ [c]) =
      let shown := (screenAfter vga console cs).1
      let console := Libk.kputsConsole exitMessage
        (Libk.ksetColor 0x0E#8 { console with video := ⟨shown.vgaBuffer, []⟩ })
      ({ shown with vgaBuffer := console.video.bytes }, console) := by
  have hreturning : returning (cs ++ [c]) = cs := by
    have hlast : returning [c] = [] := by
      rw [returning, List.takeWhile_cons, hc]
      rfl
    rw [returning_append, if_neg (Bool.eq_false_iff.mp h), hlast, List.append_nil]
  have hany : (cs ++ [c]).any UserCall.exits = true := by
    rw [any_snoc, hc, Bool.or_true]
  rw [screenAfter_of_none h]
  simp only [screenAfter, hreturning, hany]
  rfl

theorem Observed.tablesKept (hk : k = subsystemInit stack (bootKernel w))
    (h : Observed k console irq cs s) : TablesKept stack w s.world where
  registry := by rw [h.registry, hk]
  vfs := by rw [h.vfs, hk]
  kbd := by
    rw [h.world]
    dsimp only
    rw [hk]
    exact kbdBuffer_subsystemInit

/-- An interrupt, whichever it is, changes neither the ticks nor the keyboard state. -/
theorem observed_interrupt (h : Observed k console irq cs s) (d : Idt.Delivery) :
    Observed k console irq cs (sessionStep (a := a) s (.interrupt d)) := by
  refine ⟨h.table, h.registry, h.vfs, ?_, ?_, h.halted, h.answers, h.world, h.console, h.stored⟩
  · rw [← h.ticks]
    exact congrArg (fun r => r.state.timerTicks) (Idt.deliver_eq s.world.interrupts d)
  · rw [← h.kbd]
    exact congrArg (fun r => r.state.kbd) (Idt.deliver_eq s.world.interrupts d)

theorem observed_after_exit (h : Observed k console irq cs s)
    (hany : cs.any UserCall.exits = true) (c : UserCall a) :
    Observed k console irq (cs ++ [c]) (sessionStep s (.call c)) := by
  have hhalted : s.world.halted = true := h.halted.trans hany
  have hstep : sessionStep s (.call c) = s := by rw [sessionStep, if_pos hhalted]
  have hreturning : returning (cs ++ [c]) = returning cs := by
    rw [returning_append, if_pos hany]
  have hscreen := screenAfter_of_any hany k.world.vga console c
  rw [hstep]
  refine ⟨h.table, h.registry, h.vfs, h.ticks, h.kbd, ?_, ?_, ?_, ?_, h.stored⟩
  · rw [any_snoc, hany, hhalted, Bool.true_or]
  · rw [hreturning]
    exact h.answers
  · rw [hscreen]
    exact h.world
  · rw [hscreen]
    exact h.console

theorem observed_returns (hk : k = subsystemInit stack (bootKernel w))
    (h : Observed k console irq cs s) (hany : cs.any UserCall.exits = false)
    (hc : c.exits = false) : Observed k console irq (cs ++ [c]) (sessionStep s (.call c)) := by
  have hgo : ¬ s.world.halted = true := Bool.eq_false_iff.mp (h.halted.trans hany)
  have hscreen := screenAfter_snoc hany hc k.world.vga console
  have hconsole := screenAfter_of_none hany k.world.vga console
  have hreturning : returning (cs ++ [c]) = returning cs ++ [c] := by
    have hlast : returning [c] = [c] := by
      rw [returning, List.takeWhile_cons, hc]
      rfl
    rw [returning_append, if_neg (Bool.eq_false_iff.mp hany), hlast, returning_of_none hany]
  -- the step, whether the number has a function or not
  have hstep : ∃ called stored, (∀ p ∈ stored, p.2 = []) ∧
      sessionStep s (.call c) =
        { calls := { s.calls with
            called := called
            kernel := { s.world with
              kernel := showBytes c.written s.world.kernel
              stored := s.world.stored ++ stored } }
          answers := s.answers ++ [c.answer irq.timerTicks] } := by
    have hhandle := syscallHandle_init c h.table
    cases hf : c.fn? with
    | none =>
      have hwritten : c.written = [] := by rw [UserCall.written, hf]
      have hanswer : c.answer irq.timerTicks = -1#64 := by rw [UserCall.answer, hf]
      refine ⟨s.calls.called, [], fun p hp => absurd hp List.not_mem_nil, ?_⟩
      have hgo' : ¬ s.calls.kernel.halted = true := hgo
      rw [sessionStep, if_neg hgo, hhandle, hf, hwritten, hanswer]
      dsimp only
      rw [if_neg hgo', List.append_nil]
      rfl
    | some f =>
      have hreturns : f ≠ .sysExit := by
        rintro rfl
        rw [UserCall.exits, hf] at hc
        cases hc
      obtain ⟨stored, hstored, hperform⟩ := perform_returns (h.tablesKept hk) hf hreturns
      refine ⟨s.calls.called ++ [(a.fn f, c.args)], stored, hstored, ?_⟩
      rw [h.ticks] at hperform
      have hperform' : c.perform f c.args s.calls.kernel = _ := hperform
      rw [sessionStep, if_neg hgo, hhandle, hf]
      dsimp only
      rw [hperform']
      dsimp only
      rw [if_neg hgo]
  obtain ⟨called, stored, hstored, hstep⟩ := hstep
  rw [hstep]
  refine ⟨h.table, h.registry, h.vfs, h.ticks, h.kbd, ?_, ?_, ?_, ?_, fun p hp => ?_⟩
  · rw [any_snoc, hc, Bool.or_false]
    exact h.halted
  · rw [hreturning, List.map_append, ← h.answers]
    rfl
  · rw [hscreen]
    change (showBytes c.written s.world.kernel).world = _
    rw [showBytes, h.world]
  · rw [hscreen]
    change s.world.console = console
    rw [h.console, hconsole]
  · rcases List.mem_append.mp hp with hold | hnew
    · exact h.stored p hold
    · exact hstored p hnew

theorem observed_exits (h : Observed k console irq cs s) (hany : cs.any UserCall.exits = false)
    (hc : c.exits = true) : Observed k console irq (cs ++ [c]) (sessionStep s (.call c)) := by
  have hgo : ¬ s.world.halted = true := Bool.eq_false_iff.mp (h.halted.trans hany)
  have hf : c.fn? = some .sysExit := beq_iff_eq.mp hc
  have hscreen := screenAfter_exit hany hc k.world.vga console
  have hconsole := screenAfter_of_none hany k.world.vga console
  have hreturning : returning (cs ++ [c]) = returning cs := by
    have hlast : returning [c] = [] := by
      rw [returning, List.takeWhile_cons, hc]
      rfl
    rw [returning_append, if_neg (Bool.eq_false_iff.mp hany), hlast, List.append_nil,
      returning_of_none hany]
  have hstep : sessionStep s (.call c) =
      { calls := { s.calls with
          called := s.calls.called ++ [(a.fn .sysExit, c.args)]
          kernel := sysExit c.mem c.frame a.exitFormat (c.args a1) s.world }
        answers := s.answers } := by
    rw [sessionStep, if_neg hgo, syscallHandle_init c h.table, hf]
    rfl
  have hexit : sysExit c.mem c.frame a.exitFormat (c.args a1) s.world =
      let vga := (screenAfter k.world.vga console (cs ++ [c])).1
      { s.world with
        kernel := { s.world.kernel with world := { s.world.kernel.world with vga := vga } }
        console := (screenAfter k.world.vga console (cs ++ [c])).2
        halted := true } := by
    have hvga : s.world.kernel.world.vga = (screenAfter k.world.vga console cs).1 := by rw [h.world]
    have hcons : s.world.console = console := by rw [h.console, hconsole]
    rw [sysExit, kprintf_exit, hscreen, hvga, hcons]
    dsimp only [Option.getD_some]
  rw [hstep, hexit]
  refine ⟨h.table, h.registry, h.vfs, h.ticks, h.kbd, ?_, ?_, ?_, rfl, h.stored⟩
  · rw [any_snoc, hc, Bool.or_true]
    rfl
  · rw [hreturning]
    exact h.answers
  · have hworld := h.world
    dsimp only [Session.world] at hworld ⊢
    rw [hworld]

theorem observed_step (hk : k = subsystemInit stack (bootKernel w))
    (h : Observed k console irq (userCalls events) s) (event : SessionEvent a) :
    Observed k console irq (userCalls (events ++ [event])) (sessionStep s event) := by
  have hsplit : userCalls (events ++ [event]) = userCalls events ++ userCalls [event] :=
    List.filterMap_append
  rw [hsplit]
  cases event with
  | interrupt d =>
    have hnone : userCalls [SessionEvent.interrupt (a := a) d] = [] := rfl
    rw [hnone, List.append_nil]
    exact observed_interrupt h d
  | call c =>
    have hone : userCalls [SessionEvent.call c] = [c] := rfl
    rw [hone]
    cases hany : (userCalls events).any UserCall.exits with
    | true => exact observed_after_exit h hany c
    | false =>
      cases hc : c.exits with
      | true => exact observed_exits h hany hc
      | false => exact observed_returns hk h hany hc

/-- In every run of system calls and interrupts from the initialised kernel on: each call that
returns answers what it would answer anywhere else, the clock stands still, no call stores a byte
in the memory of its caller, no table changes, and the screen shows what has been written, with a
last message that does not depend on the exit code. -/
theorem session_observed (a : Addresses) (stack : StackNames) (w : World) (console : Console)
    (interrupts : Idt.Routing) (events : List (SessionEvent a)) :
    Observed (subsystemInit stack (bootKernel w)) console interrupts.state (userCalls events)
      (run sessionStep (Session.start a stack w console interrupts) events) := by
  generalize hk : subsystemInit stack (bootKernel w) = k
  induction events using List.reverseRecOn with
  | nil =>
    have hkernel : (Session.start a stack w console interrupts).world.kernel = k := hk
    refine ⟨rfl, ?_, ?_, rfl, rfl, rfl, rfl, ?_, rfl, fun p hp => absurd hp List.not_mem_nil⟩
    · rw [run_nil, hkernel]
    · rw [run_nil, hkernel]
    · rw [run_nil, hkernel]
      rfl
  | append_singleton events event ih =>
    rw [run_snoc]
    exact observed_step hk.symm ih event

def sampleAddresses : Addresses where
  fn f := BitVec.ofNat 64 (0x101000 + 16 * f.ctorIdx)
  exitFormat := 0x102000#64
  fn_injective f g h := by
    cases f <;> cases g <;> first | rfl | exact absurd h (by decide)
  fn_ne_zero f := by
    cases f <;> decide

def sampleCall (num x y z : Word) : UserCall sampleAddresses where
  num := num
  args := fun i => if i = a1 then x else if i = a2 then y else if i = a3 then z else 0#64
  mem := ⟨fun x => exitFormat.getD (x - 0x102000#64).toNat 0#8, 0#64, by decide⟩
  frame := fun _ => ⟨0#64, 0#64, fun _ => 0#64⟩
  format := by
    refine cstring_eq_of_bytes (by decide) fun i hi => ?_
    have hlt : i ≤ 36 := hi
    have hindex : (sampleAddresses.exitFormat + BitVec.ofNat 64 i - 0x102000#64).toNat = i := by
      rw [sampleAddresses, BitVec.add_comm, BitVec.add_sub_cancel, BitVec.toNat_ofNat]
      omega
    dsimp only
    rw [hindex]

def sampleTick : Idt.Delivery :=
  ⟨⟨0, Nat.succ_pos 15⟩, fun _ => 0#64, fun _ => 0#64, ⟨fun _ => 0#64, fun _ => 0#64⟩, 0#8⟩

/-- `write(1, format, 4)`, an interrupt, `read(0, format, 4)`, `time()`, `exit(5)`, and a call that
never runs. -/
def sampleEvents : List (SessionEvent sampleAddresses) :=
  [.call (sampleCall 1#64 1#64 0x102000#64 4#64), .interrupt sampleTick,
    .call (sampleCall 2#64 0#64 0x102000#64 4#64), .interrupt sampleTick,
    .call (sampleCall 9#64 0#64 0#64 0#64), .call (sampleCall 3#64 5#64 0#64 0#64),
    .call (sampleCall 8#64 0#64 0#64 0#64)]

theorem session_observed_sample :
    let s := run sessionStep (Session.start sampleAddresses .zero zeroWorld
      ⟨⟨fun _ => 0#8, []⟩, 0, 0, 0x0F#8, []⟩ ⟨[], ⟨0#64, Kbd.KbdState.boot, []⟩⟩) sampleEvents
    s.answers = [4#64, 0#64, 0#64] ∧ s.world.halted = true ∧
      (∀ p ∈ s.world.stored, p.2 = []) ∧
      (returning (userCalls sampleEvents)).flatMap UserCall.written =
        [0x0A#8, ascii '[', ascii 'e', ascii 'x'] := by
  intro s
  have h := session_observed sampleAddresses .zero zeroWorld
    ⟨⟨fun _ => 0#8, []⟩, 0, 0, 0x0F#8, []⟩ ⟨[], ⟨0#64, Kbd.KbdState.boot, []⟩⟩ sampleEvents
  have hanswers : (returning (userCalls sampleEvents)).map (UserCall.answer 0#64) =
      [4#64, 0#64, 0#64] := by decide
  exact ⟨h.answers.trans hanswers, h.halted, h.stored, by decide⟩

end FenwickOS.Syscall
