/-!
# Powers

The sizes and bounds of the format are powers of two. They are powers as the core library has them,
also for a reader of this library who has other powers of numbers in scope, so that a bound is the
same term wherever it is stated.
-/

namespace MessagePack

attribute [instance (high), default_instance (high + 1)] instPowNat

end MessagePack
