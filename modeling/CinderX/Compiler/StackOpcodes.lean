import CinderX.Foundation.Basic

/-!
# The opcodes of 3.14 and the operand stack

`opcode.popped` and `opcode.pushed`, and the instructions as `optimize_load_fast` tells
them apart.
-/

namespace CinderX.Compiler.LoadFast

/-- The opcodes whose inputs the interpreter closes and whose outputs are new
references, the static ones last. -/
inductive PlainOp
  | ANNOTATIONS_PLACEHOLDER
  | BINARY_OP
  | BINARY_SLICE
  | BUILD_INTERPOLATION
  | BUILD_LIST
  | BUILD_MAP
  | BUILD_SET
  | BUILD_SLICE
  | BUILD_STRING
  | BUILD_TEMPLATE
  | BUILD_TUPLE
  | CALL
  | CALL_FUNCTION_EX
  | CALL_INTRINSIC_1
  | CALL_INTRINSIC_2
  | CALL_KW
  | CHECK_EG_MATCH
  | CLEANUP_THROW
  | COMPARE_OP
  | CONTAINS_OP
  | CONVERT_VALUE
  | DELETE_ATTR
  | DELETE_DEREF
  | DELETE_GLOBAL
  | DELETE_NAME
  | DELETE_SUBSCR
  | EAGER_IMPORT_NAME
  | END_ASYNC_FOR
  | END_FOR
  | EXTENDED_ARG
  | FORMAT_WITH_SPEC
  | GET_AITER
  | GET_AWAITABLE
  | GET_ITER
  | IMPORT_NAME
  | IS_OP
  | JUMP_BACKWARD
  | JUMP_BACKWARD_NO_INTERRUPT
  | JUMP_FORWARD
  | LOAD_BUILD_CLASS
  | LOAD_COMMON_CONSTANT
  | LOAD_CONST
  | LOAD_DEREF
  | LOAD_FROM_DICT_OR_DEREF
  | LOAD_FROM_DICT_OR_GLOBALS
  | LOAD_GLOBAL
  | LOAD_LOCALS
  | LOAD_NAME
  | LOAD_SMALL_INT
  | MAKE_FUNCTION
  | MATCH_CLASS
  | NOP
  | NOT_TAKEN
  | POP_EXCEPT
  | POP_ITER
  | POP_JUMP_IF_FALSE
  | POP_JUMP_IF_NONE
  | POP_JUMP_IF_NOT_NONE
  | POP_JUMP_IF_TRUE
  | POP_TOP
  | PUSH_NULL
  | RAISE_VARARGS
  | RESUME
  | RETURN_GENERATOR
  | RETURN_VALUE
  | SETUP_ANNOTATIONS
  | STORE_ATTR
  | STORE_DEREF
  | STORE_GLOBAL
  | STORE_NAME
  | STORE_SLICE
  | STORE_SUBSCR
  | TO_BOOL
  | UNARY_INVERT
  | UNARY_NEGATIVE
  | UNARY_NOT
  | UNPACK_EX
  | UNPACK_SEQUENCE
  | YIELD_VALUE
  | LOAD_FIELD
  | STORE_FIELD
  | CAST
  | POP_JUMP_IF_ZERO
  | POP_JUMP_IF_NONZERO
  | PRIMITIVE_BINARY_OP
  | PRIMITIVE_UNARY_OP
  | PRIMITIVE_COMPARE_OP
  | LOAD_ITERABLE_ARG
  | LOAD_MAPPING_ARG
  | INVOKE_METHOD
  | INVOKE_FUNCTION
  | INVOKE_NATIVE
  | FAST_LEN
  | CONVERT_PRIMITIVE
  | LOAD_CLASS
  | BUILD_CHECKED_MAP
  | SEQUENCE_GET
  | SEQUENCE_SET
  | LIST_DEL
  | PRIMITIVE_LOAD_CONST
  | RETURN_PRIMITIVE
  | TP_ALLOC
  | BUILD_CHECKED_LIST
  | LOAD_TYPE
  deriving DecidableEq

/-- `opcode.popped`; `oparg` is the argument, or the length that an argument of more
parts says. -/
def PlainOp.popped (op : PlainOp) (oparg : Nat) : Nat :=
  match op with
  | ANNOTATIONS_PLACEHOLDER | DELETE_DEREF | DELETE_GLOBAL | DELETE_NAME | EXTENDED_ARG
  | JUMP_BACKWARD | JUMP_BACKWARD_NO_INTERRUPT | JUMP_FORWARD | LOAD_BUILD_CLASS
  | LOAD_COMMON_CONSTANT | LOAD_CONST | LOAD_DEREF | LOAD_GLOBAL | LOAD_LOCALS | LOAD_NAME
  | LOAD_SMALL_INT | NOP | NOT_TAKEN | PUSH_NULL | RESUME | RETURN_GENERATOR
  | SETUP_ANNOTATIONS | LOAD_CLASS | PRIMITIVE_LOAD_CONST | TP_ALLOC => 0
  | CALL_INTRINSIC_1 | CONVERT_VALUE | DELETE_ATTR | END_FOR | GET_AITER | GET_AWAITABLE
  | GET_ITER | LOAD_FROM_DICT_OR_DEREF | LOAD_FROM_DICT_OR_GLOBALS | MAKE_FUNCTION
  | POP_EXCEPT | POP_ITER | POP_JUMP_IF_FALSE | POP_JUMP_IF_NONE | POP_JUMP_IF_NOT_NONE
  | POP_JUMP_IF_TRUE | POP_TOP | RETURN_VALUE | STORE_DEREF | STORE_GLOBAL | STORE_NAME
  | TO_BOOL | UNARY_INVERT | UNARY_NEGATIVE | UNARY_NOT | UNPACK_EX | UNPACK_SEQUENCE
  | YIELD_VALUE | LOAD_FIELD | CAST | POP_JUMP_IF_ZERO | POP_JUMP_IF_NONZERO
  | PRIMITIVE_UNARY_OP | LOAD_ITERABLE_ARG | FAST_LEN | CONVERT_PRIMITIVE
  | RETURN_PRIMITIVE | LOAD_TYPE => 1
  | BINARY_OP | BUILD_TEMPLATE | CALL_INTRINSIC_2 | CHECK_EG_MATCH | COMPARE_OP | CONTAINS_OP
  | DELETE_SUBSCR | EAGER_IMPORT_NAME | END_ASYNC_FOR | FORMAT_WITH_SPEC | IMPORT_NAME
  | IS_OP | STORE_ATTR | STORE_FIELD | PRIMITIVE_BINARY_OP | PRIMITIVE_COMPARE_OP
  | SEQUENCE_GET | LIST_DEL => 2
  | BINARY_SLICE | CLEANUP_THROW | MATCH_CLASS | STORE_SUBSCR | SEQUENCE_SET => 3
  | CALL_FUNCTION_EX | STORE_SLICE => 4
  | BUILD_INTERPOLATION => 2 + (oparg &&& 1)
  | BUILD_MAP | BUILD_CHECKED_MAP => 2 * oparg
  | BUILD_LIST | BUILD_SET | BUILD_SLICE | BUILD_STRING | BUILD_TUPLE | RAISE_VARARGS
  | INVOKE_FUNCTION | BUILD_CHECKED_LIST => oparg
  | CALL | INVOKE_METHOD => 2 + oparg
  | CALL_KW => 3 + oparg
  | LOAD_MAPPING_ARG => if oparg = 3 then 3 else 2
  | INVOKE_NATIVE => oparg - 1

def PlainOp.pushed (op : PlainOp) (oparg : Nat) : Nat :=
  match op with
  | ANNOTATIONS_PLACEHOLDER | DELETE_ATTR | DELETE_DEREF | DELETE_GLOBAL | DELETE_NAME
  | DELETE_SUBSCR | END_ASYNC_FOR | END_FOR | EXTENDED_ARG | JUMP_BACKWARD
  | JUMP_BACKWARD_NO_INTERRUPT | JUMP_FORWARD | NOP | NOT_TAKEN | POP_EXCEPT | POP_ITER
  | POP_JUMP_IF_FALSE | POP_JUMP_IF_NONE | POP_JUMP_IF_NOT_NONE | POP_JUMP_IF_TRUE | POP_TOP
  | RAISE_VARARGS | RESUME | SETUP_ANNOTATIONS | STORE_ATTR | STORE_DEREF | STORE_GLOBAL
  | STORE_NAME | STORE_SLICE | STORE_SUBSCR | STORE_FIELD | POP_JUMP_IF_ZERO
  | POP_JUMP_IF_NONZERO | SEQUENCE_SET | LIST_DEL | RETURN_PRIMITIVE => 0
  | CHECK_EG_MATCH | CLEANUP_THROW | LOAD_ITERABLE_ARG => 2
  | LOAD_GLOBAL => 1 + (oparg &&& 1)
  | UNPACK_EX => 1 + (oparg &&& 0xFF) + (oparg >>> 8)
  | UNPACK_SEQUENCE => oparg
  | _ => 1

inductive NoInputOp
  | FORMAT_SIMPLE
  | GET_ANEXT
  | GET_LEN
  | GET_YIELD_FROM_ITER
  | IMPORT_FROM
  | MATCH_KEYS
  | MATCH_MAPPING
  | MATCH_SEQUENCE
  | WITH_EXCEPT_START
  deriving DecidableEq

def NoInputOp.delta : NoInputOp → Nat
  | FORMAT_SIMPLE | GET_YIELD_FROM_ITER => 0
  | _ => 1

inductive PartlyOp
  | DICT_MERGE
  | DICT_UPDATE
  | LIST_APPEND
  | LIST_EXTEND
  | MAP_ADD
  | RERAISE
  | SET_ADD
  | SET_UPDATE
  deriving DecidableEq

def PartlyOp.popped (op : PartlyOp) (oparg : Nat) : Nat :=
  match op with
  | DICT_MERGE => 5 + (oparg - 1)
  | DICT_UPDATE | LIST_APPEND | LIST_EXTEND | SET_ADD | SET_UPDATE => 2 + (oparg - 1)
  | MAP_ADD => 3 + (oparg - 1)
  | RERAISE => 1 + oparg

def PartlyOp.pushed (op : PartlyOp) (oparg : Nat) : Nat :=
  match op with
  | DICT_MERGE => 4 + (oparg - 1)
  | DICT_UPDATE | LIST_APPEND | LIST_EXTEND | SET_ADD | SET_UPDATE | MAP_ADD => 1 + (oparg - 1)
  | RERAISE => oparg

def PartlyOp.netPopped (op : PartlyOp) (oparg : Nat) : Nat := op.popped oparg - op.pushed oparg

/-- The instructions after `convert_pseudo_ops` and `resolve_unconditional_jumps`; a
local is its index in the frame, a target the id of a block. -/
inductive Instr
  | DELETE_FAST (loc : Nat)
  | LOAD_FAST (loc : Nat)
  | LOAD_FAST_BORROW (loc : Nat)
  | LOAD_FAST_CHECK (loc : Nat)
  | LOAD_FAST_AND_CLEAR (loc : Nat)
  | LOAD_FAST_LOAD_FAST (ioparg : Nat)
  | LOAD_FAST_BORROW_LOAD_FAST_BORROW (ioparg : Nat)
  | STORE_FAST (loc : Nat)
  | STORE_FAST_LOAD_FAST (ioparg : Nat)
  | STORE_FAST_STORE_FAST (ioparg : Nat)
  | COPY (ioparg : Nat)
  | SWAP (ioparg : Nat)
  | noInput (op : NoInputOp)
  | partly (op : PartlyOp) (oparg : Nat)
  | END_SEND
  | SET_FUNCTION_ATTRIBUTE
  | CHECK_EXC_MATCH
  | FOR_ITER (target : Nat)
  | LOAD_ATTR (ioparg : Nat)
  | LOAD_SUPER_ATTR (ioparg : Nat)
  | LOAD_SPECIAL
  | PUSH_EXC_INFO
  | SEND (target : Nat)
  | plain (op : PlainOp) (oparg : Nat) (target : Option Nat)
  | MAKE_CELL (loc : Nat)
  | COPY_FREE_VARS (first count : Nat)
  | LOAD_LOCAL (loc : Nat)
  | STORE_LOCAL (loc : Nat) (isDouble : Bool)
  | REFINE_TYPE
  | PRIMITIVE_BOX
  | PRIMITIVE_UNBOX
  | LOAD_METHOD_STATIC
  deriving DecidableEq

/-- An instruction with the depth that its handler, if it has one, cuts the stack to. -/
structure Inst where
  op : Instr
  handler : Option Nat
  deriving DecidableEq

def firstLocal (ioparg : Nat) : Nat := ioparg >>> 4

def secondLocal (ioparg : Nat) : Nat := ioparg &&& 15

def swapTop {α : Type} (n : Nat) (stack : List α) : Option (List α) := do
  let top ← stack[0]?
  let low ← stack[n - 1]?
  return (stack.set (n - 1) top).set 0 low

end CinderX.Compiler.LoadFast
