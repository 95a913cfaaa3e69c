/-!
# Arithmetic

A power of a natural number or an integer is everywhere the one of the core library, and the
zero that sums start from is its zero, also beside a library in which these come from algebraic
structures.
-/

attribute [instance (10000), default_instance 10000] instPowNat

attribute [instance (10000)] Zero.ofOfNat0
