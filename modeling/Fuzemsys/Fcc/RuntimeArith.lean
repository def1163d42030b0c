import Fuzemsys.Fcc.Runtime6809

/-!
# The arithmetic routines

The left operand is on the stack of the caller and the right one in D, or in Y and D. Entries that
only wrap others are left out.
-/

open Fuzemsys.Lib

namespace Fuzemsys.Fcc.Runtime

/-! ## Words -/

def mul : Code :=
  let l := Label.mk .__mul
  [.label (l .__mul), op .std (.preDec2 .s), op .lda (.index 5 .s), op .mul .none, op .std (.preDec2 .s),
    op .lda (.index 7 .s), op .ldb (.index 2 .s), op .mul .none, op .addb (.index 0 .s), op .stb (.index 0 .s),
    op .lda (.index 6 .s), op .ldb (.index 3 .s), op .mul .none, op .addb (.index 0 .s), op .tfr (.pair .b .a),
    op .ldb (.index 1 .s), op .ldx (.index 4 .s), op .leas (.index 8 .s), .jump]

/-- D is the divisor and X the dividend. The quotient is left in X and the remainder in D. -/
def divide : Code :=
  let l := Label.mk .divide
  [.label (l .div16x16), op .std (.preDec2 .s), op .ldb (.imm 16), op .stb (.preDec .s), op .clra .none, op .clrb .none,
    .label (l .loop), op .exg (.pair .d .x), op .lslb .none, op .rola .none, op .exg (.pair .d .x), op .rolb .none,
    op .rola .none, op .leax (.index 1 .x), op .subd (.index 1 .s), .branch .cc (l .skip), op .addd (.index 1 .s),
    op .leax (.index (-1) .x),
    .label (l .skip), op .dec (.index 0 .s), .branch .ne (l .loop), op .leas (.index 3 .s), .ret]

/-- The absolute value of D. Y counts the changes of sign. -/
def absolute (file : File) : Code :=
  let l := Label.mk file
  [.label (l .absd), op .bita (.imm 0x80), .branch .eq (l .ispos), op .leay (.index 1 .y),
    .label (l .negd), op .subd (.direct .one 0), op .coma .none, op .comb .none,
    .label (l .ispos), .ret]

def div : Code :=
  let l := Label.mk .__div
  [.label (l .__rem), .call (l .absd), op .tfr (.pair .d .x), op .ldd (.index 2 .s), .branch .mi (l .negmod),
    op .exg (.pair .d .x), .call ⟨.divide, .div16x16⟩,
    .label (l .pop2), op .ldx (.index 0 .s), op .leas (.index 4 .s), .jump,
    .label (l .negmod), .call (l .negd), op .exg (.pair .d .x), .call ⟨.divide, .div16x16⟩, .call (l .negd),
    .branch .ra (l .pop2),
    .label (l .__div), op .ldy (.imm 0), .call (l .absd), op .tfr (.pair .d .x), op .ldd (.index 2 .s), .call (l .absd),
    op .exg (.pair .d .x), .call ⟨.divide, .div16x16⟩, op .tfr (.pair .x .d), op .cmpy (.imm 1), .branch .ne (l .pop2),
    .call (l .negd), .branch .ra (l .pop2)] ++ absolute .__div

def divu : Code :=
  let l := Label.mk .__divu
  [.label (l .__divu), op .ldx (.index 2 .s), .call ⟨.divide, .div16x16⟩, op .exg (.pair .d .x),
    .label (l .pop2), op .ldx (.index 0 .s), op .leas (.index 4 .s), .jump,
    .label (l .__remu), op .ldx (.index 2 .s), .call ⟨.divide, .div16x16⟩, .branch .ra (l .pop2)]

/-- X is the address of the left operand. -/
def xdiveq : Code :=
  let l := Label.mk .__xdiveq
  [.label (l .__xremeq), op .stx (.preDec2 .s), op .ldy (.imm 0), .call (l .absd), op .ldx (.index 0 .x),
    op .exg (.pair .d .x), op .bita (.imm 0x80), .branch .ne (l .negmod), op .exg (.pair .d .x), .call ⟨.divide, .div16x16⟩,
    .label (l .store), op .ldx (.postInc2 .s), op .std (.index 0 .x), .ret,
    .label (l .negmod), .call (l .negd), op .exg (.pair .d .x), .call ⟨.divide, .div16x16⟩, .call (l .negd),
    .branch .ra (l .store),
    .label (l .__xdiveq), op .stx (.preDec2 .s), op .ldy (.imm 0), op .ldx (.index 0 .x), .call (l .absd),
    op .exg (.pair .d .x), .call (l .absd), op .exg (.pair .d .x), .call ⟨.divide, .div16x16⟩, op .tfr (.pair .x .d),
    op .cmpy (.imm 1), .branch .ne (l .store), .call (l .negd), .branch .ra (l .store)] ++ absolute .__xdiveq

/-! ## Longs -/

def negatel : Code :=
  let l := Label.mk .__negatel
  [.label (l .__negatel), op .exg (.pair .d .y), op .coma .none, op .comb .none, op .exg (.pair .d .y), op .coma .none,
    op .comb .none, op .addd (.direct .one 0), .branch .cc (l .nocarry), op .leay (.index 1 .y),
    .label (l .nocarry), .ret]

def minusl : Code :=
  let l := Label.mk .__minusl
  [.label (l .__minusl), op .std (.preDec2 .s), op .sty (.preDec2 .s), op .ldd (.index 6 .s), op .subd (.index 2 .s),
    op .exg (.pair .d .y), op .ldd (.index 4 .s), op .sbcb (.index 1 .s), op .sbca (.index 0 .s), op .exg (.pair .d .y),
    op .ldx (.index 4 .s), op .leas (.index 8 .s), .ret]

/-- A transfer leaves the flags alone: `beq` asks for the byte that was stored last. -/
def mull : Code :=
  let l := Label.mk .__mull
  [.label (l .__mull), .label (l .__mulul), op .leas (.index (-4) .s), op .std (.direct .tmp 0), op .lda (.index 9 .s),
    op .ldb (.direct .tmp 1), op .mul .none, op .std (.index 2 .s), op .lda (.index 8 .s), op .ldb (.direct .tmp 1),
    op .mul .none, op .addb (.index 2 .s), op .adca (.imm 0), op .std (.index 1 .s), op .lda (.index 7 .s),
    op .ldb (.direct .tmp 1), op .mul .none, op .addb (.index 1 .s), op .adca (.imm 0), op .std (.index 0 .s),
    op .lda (.index 6 .s), op .ldb (.direct .tmp 1), op .mul .none, op .addb (.index 0 .s), op .stb (.index 0 .s),
    op .lda (.index 9 .s), op .ldb (.direct .tmp 0), op .mul .none, op .addb (.index 2 .s), op .adca (.index 1 .s),
    op .std (.index 1 .s), .branch .cc (l .norip16), op .inc (.index 0 .s),
    .label (l .norip16), op .lda (.index 8 .s), op .ldb (.direct .tmp 0), op .mul .none, op .addb (.index 1 .s),
    op .adca (.index 0 .s), op .std (.index 0 .s), op .lda (.index 7 .s), op .ldb (.direct .tmp 0), op .mul .none,
    op .addb (.index 0 .s), op .stb (.index 0 .s), op .tfr (.pair .y .d), .branch .eq (l .is_done), op .lda (.index 9 .s),
    op .mul .none, op .addb (.index 1 .s), op .adca (.index 0 .s), op .std (.index 0 .s), op .tfr (.pair .y .d),
    op .lda (.index 8 .s), op .mul .none, op .addb (.index 0 .s), op .stb (.index 0 .s), op .tfr (.pair .y .d),
    .branch .eq (l .is_done), op .ldb (.index 9 .s), op .mul .none, op .addb (.index 0 .s), op .stb (.index 0 .s),
    .label (l .is_done), op .ldy (.postInc2 .s), op .ldd (.postInc2 .s), op .ldx (.postInc2 .s), op .leas (.index 4 .s),
    .jump]

/-- The divisor is at X and the dividend six bytes behind. The quotient replaces the dividend, and the remainder is left
in `tmp2` and `tmp3`. -/
def divide32x32 : Code :=
  let l := Label.mk .divide32x32
  [.label (l .div32x32), op .ldb (.imm 32), op .stb (.direct .tmp 0), op .clra .none, op .clrb .none,
    op .std (.direct .tmp2 0), op .std (.direct .tmp3 0),
    .label (l .loop), op .orcc (.imm 1), op .rol (.index 9 .x), op .rol (.index 8 .x), op .rol (.index 7 .x),
    op .rol (.index 6 .x), op .rol (.direct .tmp3 1), op .rol (.direct .tmp3 0), op .rol (.direct .tmp2 1),
    op .rol (.direct .tmp2 0), op .ldd (.direct .tmp3 0), op .subd (.index 2 .x), op .std (.direct .tmp3 0),
    op .ldd (.direct .tmp2 0), op .sbcb (.index 1 .x), op .sbca (.index 0 .x), .branch .cc (l .skip),
    op .ldd (.direct .tmp3 0), op .addd (.index 2 .x), op .std (.direct .tmp3 0), op .dec (.index 9 .x),
    .label (l .done), op .dec (.direct .tmp 0), .branch .ne (l .loop), .ret,
    .label (l .skip), op .std (.direct .tmp2 0), op .dec (.direct .tmp 0), .branch .ne (l .loop), .ret]

def divul : Code :=
  let l := Label.mk .__divul
  [.label (l .__divul), op .std (.preDec2 .s), op .sty (.preDec2 .s), op .tfr (.pair .s .x),
    .call ⟨.divide32x32, .div32x32⟩, op .ldy (.index 6 .x), op .ldd (.index 8 .x), op .ldx (.index 4 .x),
    op .leas (.index 10 .s), .jump]

def remul : Code :=
  let l := Label.mk .__remul
  [.label (l .__remul), op .std (.preDec2 .s), op .sty (.preDec2 .s), op .tfr (.pair .s .x),
    .call ⟨.divide32x32, .div32x32⟩, op .ldy (.direct .tmp2 0), op .ldd (.direct .tmp3 0), op .ldx (.index 4 .x),
    op .leas (.index 10 .s), .jump]

/-- The left operand is negated where it lies on the stack. -/
def negateLeft (file : File) : Code :=
  let l := Label.mk file
  [op .ldd (.index 8 .s), op .subd (.imm 1), op .std (.index 8 .s), op .ldd (.index 6 .s), op .sbcb (.imm 0),
    op .sbca (.imm 0), op .coma .none, op .comb .none, op .std (.index 6 .s), op .com (.index 8 .s), op .com (.index 9 .s),
    .label (l .nosignfix2), op .tfr (.pair .s .x), .call ⟨.divide32x32, .div32x32⟩]

def divl : Code :=
  let l := Label.mk .__divl
  [.label (l .__divl), op .clr (.direct .tmp4 0), op .exg (.pair .d .y), op .bita (.imm 0x80), .branch .eq (l .nosignfix),
    op .exg (.pair .d .y), .call ⟨.__negatel, .__negatel⟩, op .inc (.direct .tmp4 0), op .exg (.pair .d .y),
    .label (l .nosignfix), op .sty (.preDec2 .s), op .std (.preDec2 .s), op .lda (.index 6 .s), .branch .pl (l .nosignfix2),
    op .inc (.direct .tmp4 0)] ++ negateLeft .__divl ++
  [op .ldb (.direct .tmp4 0), op .rorb .none, .branch .cc (l .nosignfix3), op .ldy (.index 6 .s), op .ldd (.index 8 .s),
    .call ⟨.__negatel, .__negatel⟩,
    .label (l .out), op .ldx (.index 4 .s), op .leas (.index 10 .s), .jump,
    .label (l .nosignfix3), op .ldy (.index 6 .s), op .ldd (.index 8 .s), .branch .ra (l .out)]

def reml : Code :=
  let l := Label.mk .__reml
  [.label (l .__reml), op .exg (.pair .d .y), op .bita (.imm 0x80), .branch .eq (l .nosignfix), op .exg (.pair .d .y),
    .call ⟨.__negatel, .__negatel⟩, op .exg (.pair .d .y),
    .label (l .nosignfix), op .sty (.preDec2 .s), op .std (.preDec2 .s), op .lda (.index 6 .s), op .sta (.direct .tmp4 0),
    .branch .pl (l .nosignfix2)] ++ negateLeft .__reml ++
  [op .ldy (.direct .tmp2 0), op .lda (.direct .tmp4 0), .branch .pl (l .done), op .ldd (.direct .tmp3 0),
    .call ⟨.__negatel, .__negatel⟩,
    .label (l .pop4), op .ldx (.index 4 .s), op .leas (.index 10 .s), .jump,
    .label (l .done), op .ldd (.direct .tmp3 0), .branch .ra (l .pop4)]

end Fuzemsys.Fcc.Runtime
