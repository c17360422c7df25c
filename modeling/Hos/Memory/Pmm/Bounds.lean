import Hos.Memory.Pmm.Init

/-!
# The video memory at boot

The video memory is mapped at a fixed address, with the length that the boot
information gives it, rounded up to pages.
-/

namespace Hos.Pmm

/-- `FRAMEBUFFER_START`, which is `video_start`. -/
def framebufferStart : Nat := 0xF0000000

/-- `PAGE_ALIGN(video_end - video_start)`. -/
def BootInfo.videoMapSize (boot : BootInfo) : Nat := pageAlign boot.videoSize

end Hos.Pmm
