import FirmwareMeta.Command.Line

/-!
What is shown for a command line that is refused or asks for help.
-/
namespace FirmwareMeta.Command

def helpText : String := "\n".intercalate
  ["Makes install entries, update records and update bundles from a build directory.",
   "",
   "Usage: firmware-meta [OPTIONS] <COMMAND>",
   "",
   "Commands:",
   "  flash   Make the install entry for direct flashing",
   "  update  Make the update record and the bundle of signed update images",
   "  all     Make the install entry, the update record and the bundle",
   "  dump    Print and verify the update record in an Intel HEX file",
   "  help    Print this help",
   "",
   "Options of flash, update and all:",
   "      --build-dir <PATH>             Build directory",
   "      --hardware-description <PATH>  Devicetree source or JSON list of nodes",
   "      --softdevice-image <PATH>      Signed SoftDevice update image",
   "      --installer-dir <PATH>         Build directory of the installer",
   "",
   "Options of dump:",
   "  -i, --input <PATH>   Intel HEX file",
   "",
   "Options:",
   "  -v, --verbose        Log debug output",
   "  -c, --config <PATH>  Override file, bm-metadata.toml of the build directory if not given",
   "  -h, --help           Print this help",
   "  -V, --version        Print the version"]

def Usage.text : Usage → String
  | help => helpText
  | version => "firmware-meta 1.0.0"
  | nothing => helpText
  | missingSubcommand => "error: a command is missing"
  | invalidSubcommand => "error: there is no such command"
  | unknownArgument => "error: unexpected argument"
  | invalidValue => "error: an option needs a value"
  | conflict => "error: an option is given more than once"
  | tooManyValues => "error: an option takes no value"
  | missingRequired => "error: a required option is missing"

end FirmwareMeta.Command
