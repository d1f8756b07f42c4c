import I8085.Proofs.Console.Session

/-!
# A session that is interrupted

A session looks for an interrupt each time it comes round without having halted, before it
looks at its limit and before it fetches.  An interrupt that comes after the last look changes
nothing at all.  One that waits at a look ends the session there, between two instructions,
whatever else would have ended it at the same place.
-/

namespace I8085
namespace Console.Session

variable {Q : Type} [Deque Q]

variable {quiet count : Nat} {limit : Option Nat}

end Console.Session
end I8085
