import Stencil.Token.Basic

/-!
# Sources of tokens

A source gives out tokens one by one and shows the next one beforehand. A list of tokens is a
source. So is a scanner, which finds each token only when it is asked for. Behind its last token a
source goes on with the end, however often one looks.
-/

namespace Stencil

/-- Something that gives out tokens one by one. Looking at a token may change the source, but not
the token that comes next. -/
class TokenSource (σ : Type) where
  /-- The next token, which stays where it is. -/
  peek : σ → Token × σ
  /-- Gives out the next token. -/
  next : σ → Token × σ

instance : TokenSource (List Token) where
  peek ts := (ts.headD Token.eof, ts)
  next ts := (ts.headD Token.eof, ts.drop 1)

end Stencil
