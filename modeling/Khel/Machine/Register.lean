/-!
# Registers

A register has no width of its own: an instruction names the part of it that it works on.
-/

namespace Khel.Machine

/-- The registers that code uses. -/
inductive Register where
  | ax | cx | dx | di | si | r8 | r9 | r10 | r11 | sp | bp
  deriving DecidableEq

namespace Register

/-- The name of the low byte, of the low four bytes, or otherwise of the whole register. The stack and frame pointers
are only used whole. -/
def name : Register → (bytes : Nat) → String
  | .ax, 1 => "al"
  | .ax, 4 => "eax"
  | .ax, _ => "rax"
  | .cx, 1 => "cl"
  | .cx, 4 => "ecx"
  | .cx, _ => "rcx"
  | .dx, 1 => "dl"
  | .dx, 4 => "edx"
  | .dx, _ => "rdx"
  | .di, 1 => "dil"
  | .di, 4 => "edi"
  | .di, _ => "rdi"
  | .si, 1 => "sil"
  | .si, 4 => "esi"
  | .si, _ => "rsi"
  | .r8, 1 => "r8b"
  | .r8, 4 => "r8d"
  | .r8, _ => "r8"
  | .r9, 1 => "r9b"
  | .r9, 4 => "r9d"
  | .r9, _ => "r9"
  | .r10, 1 => "r10b"
  | .r10, 4 => "r10d"
  | .r10, _ => "r10"
  | .r11, 1 => "r11b"
  | .r11, 4 => "r11d"
  | .r11, _ => "r11"
  | .sp, _ => "rsp"
  | .bp, _ => "rbp"

/-- The register that carries an argument, counted from zero; six arguments travel in registers. -/
def ofArgument? : Nat → Option Register
  | 0 => some .di
  | 1 => some .si
  | 2 => some .dx
  | 3 => some .cx
  | 4 => some .r8
  | 5 => some .r9
  | _ => none

end Register

end Khel.Machine
