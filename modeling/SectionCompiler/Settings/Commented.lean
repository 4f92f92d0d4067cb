/-! The text of a settings file that explains every setting and sets none. -/

namespace SectionCompiler.Settings

def explanation : List String := [
  "# Settings for one `iniweave build`.",
  "",
  "# Root of the document tree. Files and directories whose names start",
  "# with `@` are not compiled.",
  "#",
  "# Can also be specified via environment variable `IW_INPUT_ROOT`.",
  "#",
  "# Required! This value must be specified.",
  "#input_root =",
  "",
  "# Path of the merged output file.",
  "#",
  "# Can also be specified via environment variable `IW_OUTPUT_PATH`.",
  "#",
  "# Required! This value must be specified.",
  "#output_path =",
  "",
  "# Root of the macro tree. Without it, macro directives are kept as",
  "# plain entries.",
  "#",
  "# Can also be specified via environment variable `IW_MACRO_ROOT`.",
  "#macro_root =",
  "",
  "# Document name the registry tables are compiled under.",
  "#",
  "# Default value: \"registry.ini\"",
  "#registry_file = \"registry.ini\"",
  "",
  "# Registry tables, built in order.",
  "#registry =",
  "",
  "# Omit the `; File:` banner before each document.",
  "#",
  "# Can also be specified via environment variable `IW_RELEASE`.",
  "#",
  "# Default value: false",
  "#release = false",
  "",
  "# What to do when a document fails: `abort` or `skip`.",
  "#",
  "# Default value: \"abort\"",
  "#on_error = \"abort\"",
  "",
  "# Maximum inheritance nesting.",
  "#",
  "# Default value: 64",
  "#max_depth = 64"]

def commented : String := String.join (explanation.map (· ++ "\n"))

end SectionCompiler.Settings
